import DbExp.Tapir.LockStore

namespace DbExp.Tapir.Locking
open Function

section
variable {l : Lock} {now later : Time}

def LockState.Writes (state : LockState) : Prop := state = .lockedForWrite ∨ state = .lockedForReadWrite

@[simp] theorem waitForLock_state : (l.waitForLock r write now).state = l.state := by
  unfold Lock.waitForLock; split <;> rfl

@[simp] theorem waitForLock_holders : (l.waitForLock r write now).holders = l.holders := by
  unfold Lock.waitForLock; split <;> rfl

@[simp] theorem tryAcquireLock_state : (l.tryAcquireLock r write now later).1.state = l.state := by
  unfold Lock.tryAcquireLock
  dsimp only
  split
  · rfl
  · split
    · rfl
    · exact waitForLock_state

@[simp] theorem tryAcquireLock_holders : (l.tryAcquireLock r write now later).1.holders = l.holders := by
  unfold Lock.tryAcquireLock
  dsimp only
  split
  · rfl
  · split
    · rfl
    · exact waitForLock_holders

@[simp] theorem isWriteNext_state : (l.isWriteNext now).1.state = l.state := by
  unfold Lock.isWriteNext
  dsimp only
  split <;> rfl

@[simp] theorem isWriteNext_holders : (l.isWriteNext now).1.holders = l.holders := by
  unfold Lock.isWriteNext
  dsimp only
  split <;> rfl

-- A lock is held by nobody when it is open and by at most one transaction in a mode
-- that writes, and that transaction is one that may write the key.
structure Lock.Sound (l : Lock) (mayWrite : Nat → Prop) : Prop where
  free : l.state = .unlocked → l.holders = ∅
  single : l.state.Writes → l.holders.card ≤ 1
  written : l.state.Writes → ∀ h ∈ l.holders, mayWrite h

variable {mayWrite : Nat → Prop}

theorem Lock.Sound.congr (sound : l.Sound mayWrite) {k : Lock} (state : k.state = l.state) (holders : k.holders = l.holders) :
    k.Sound mayWrite where
  free := by rw [state,holders]; exact sound.free
  single := by rw [state,holders]; exact sound.single
  written := by rw [state,holders]; exact sound.written

theorem Lock.Sound.imp (sound : l.Sound mayWrite) {wider : Nat → Prop} (more : ∀ h ∈ l.holders, mayWrite h → wider h) : l.Sound wider where
  free := sound.free
  single := sound.single
  written := fun writes h mem => more h mem (sound.written writes h mem)

theorem not_writes_of_reading (mode : l.state = .lockedForRead) : ¬ l.state.Writes := by
  rintro (writes | writes) <;> (cases mode.symm.trans writes)

theorem sound_of_reading (mode : l.state = .lockedForRead) : l.Sound mayWrite where
  free := fun unlocked => by cases mode.symm.trans unlocked
  single := fun writes => absurd writes (not_writes_of_reading mode)
  written := fun writes => absurd writes (not_writes_of_reading mode)

theorem lockForRead_holders :
    (l.lockForRead r now later).1.holders = if (l.lockForRead r now later).2 then insert r l.holders else l.holders := by
  unfold Lock.lockForRead
  split
  · dsimp only
    split <;> simp
  · split
    next held =>
      simp [Finset.insert_eq_self.mpr held]
    · dsimp only
      split <;> simp
  all_goals
    split
    next held =>
      simp [Finset.insert_eq_self.mpr held]
    · simp

theorem lockForWrite_holders :
    (l.lockForWrite r now later).1.holders = if (l.lockForWrite r now later).2 then insert r l.holders else l.holders := by
  unfold Lock.lockForWrite
  split
  · dsimp only
    split <;> simp
  · split
    next held =>
      simp [Finset.insert_eq_self.mpr held.2]
    · simp
  all_goals
    split
    next held =>
      simp [Finset.insert_eq_self.mpr held]
    · simp

theorem lockForRead_sound (sound : l.Sound mayWrite) : (l.lockForRead r now later).1.Sound mayWrite := by
  unfold Lock.lockForRead
  split
  · dsimp only
    split
    · exact sound_of_reading rfl
    · exact sound.congr tryAcquireLock_state tryAcquireLock_holders
  next reading =>
    split
    · exact sound
    dsimp only
    split
    · exact sound.congr (by simp) (by simp)
    · exact sound_of_reading (isWriteNext_state.trans reading)
  all_goals
    rename_i writing
    split
    · exact ⟨fun h => (by cases h),fun _ => sound.single (by simp [writing,LockState.Writes]),
        fun _ => sound.written (by simp [writing,LockState.Writes])⟩
    · exact sound.congr waitForLock_state waitForLock_holders

theorem lockForWrite_sound (sound : l.Sound mayWrite) (may : mayWrite r) : (l.lockForWrite r now later).1.Sound mayWrite := by
  unfold Lock.lockForWrite
  split
  next unlocked =>
    dsimp only
    split
    · have empty := sound.free unlocked
      exact ⟨fun h => (by cases h),fun _ => by simp [empty],fun _ h mem => by simp_all⟩
    · exact sound.congr tryAcquireLock_state tryAcquireLock_holders
  · split
    next alone =>
      refine ⟨fun h => (by cases h),fun _ => alone.1.le,fun _ h mem => ?_⟩
      obtain ⟨x,only⟩ := Finset.card_eq_one.mp alone.1
      have mine := alone.2
      simp only [only,Finset.mem_singleton] at mem mine
      rw [mem,← mine]
      exact may
    · exact sound.congr waitForLock_state waitForLock_holders
  all_goals
    split
    · exact sound
    · exact sound.congr waitForLock_state waitForLock_holders

theorem releaseForRead_sound (sound : l.Sound mayWrite) : (l.releaseForRead r).Sound mayWrite := by
  unfold Lock.releaseForRead
  split
  · exact sound
  split
  · exact sound
  · exact sound
  · refine ⟨fun open_now => ?_,fun writes => ?_,fun writes => ?_⟩
    · by_contra left
      simp [left] at open_now
    all_goals
      simp only [LockState.Writes] at writes
      split at writes <;> simp at writes
  next both =>
    exact ⟨fun h => (by cases h),fun _ => sound.single (.inr both),fun _ => sound.written (.inr both)⟩

theorem releaseForWrite_sound (sound : l.Sound mayWrite) : (l.releaseForWrite r).Sound mayWrite := by
  unfold Lock.releaseForWrite
  split
  · exact sound
  rename_i held
  split
  · exact sound
  · exact sound
  next writing =>
    refine ⟨fun _ => ?_,fun writes => by simp [LockState.Writes] at writes,fun writes => by simp [LockState.Writes] at writes⟩
    have alone := sound.single (.inl writing)
    refine Finset.card_eq_zero.mp ?_
    rw [Finset.card_erase_of_mem (not_not.mp held)]
    omega
  · exact sound_of_reading rfl

theorem releaseForRead_holders : (l.releaseForRead r).holders ⊆ l.holders := by
  unfold Lock.releaseForRead
  split
  · exact Finset.Subset.refl _
  · split <;> first | exact Finset.Subset.refl _ | exact Finset.erase_subset _ _

theorem releaseForWrite_holders : (l.releaseForWrite r).holders ⊆ l.holders := by
  unfold Lock.releaseForWrite
  split
  · exact Finset.Subset.refl _
  · split <;> first | exact Finset.Subset.refl _ | exact Finset.erase_subset _ _

def Lock.drop (l : Lock) (id : Nat) (written read : Bool) : Lock :=
  let l := if written then l.releaseForWrite id else l
  if read then l.releaseForRead id else l

theorem drop_sound {id : Nat} {written read : Bool} (sound : l.Sound mayWrite) : (l.drop id written read).Sound mayWrite := by
  unfold Lock.drop
  cases written <;> cases read
  · exact sound
  · exact releaseForRead_sound sound
  · exact releaseForWrite_sound sound
  · exact releaseForRead_sound (releaseForWrite_sound sound)

theorem drop_holders {id : Nat} {written read : Bool} : (l.drop id written read).holders ⊆ l.holders := by
  unfold Lock.drop
  cases written <;> cases read
  · exact Finset.Subset.refl _
  · exact releaseForRead_holders
  · exact releaseForWrite_holders
  · exact releaseForRead_holders.trans releaseForWrite_holders

theorem drop_releases {id : Nat} {written read : Bool} (sound : l.Sound mayWrite)
    (writes : id ∈ l.holders → l.state.Writes → written = true)
    (reads : id ∈ l.holders → l.state = .lockedForRead ∨ l.state = .lockedForReadWrite → read = true) :
    id ∉ (l.drop id written read).holders := by
  by_cases held : id ∈ l.holders
  · unfold Lock.drop
    cases mode : l.state with
    | unlocked =>
      rw [sound.free mode] at held
      simp at held
    | lockedForRead =>
      have second := reads held (.inl mode)
      cases written <;> simp [second,Lock.releaseForRead,Lock.releaseForWrite,held,mode]
    | lockedForWrite =>
      have first := writes held (.inl mode)
      cases read <;> simp [first,Lock.releaseForRead,Lock.releaseForWrite,held,mode]
    | lockedForReadWrite =>
      have first := writes held (.inr mode)
      have second := reads held (.inr mode)
      simp [first,second,Lock.releaseForRead,Lock.releaseForWrite,held,mode]
  · exact fun still => held (drop_holders still)

end

section
variable {server : LockServer} {id : Nat} {now later : Time}
open LockServer (lock)

theorem lock_insert : lock (server.insert key l) other = if key = other then l else lock server other := by
  unfold lock
  rw [OrdMap.find_insert]
  split <;> rfl

theorem lock_release (release : Lock → Lock) (idle : release .new = .new) (server : LockServer) :
    lock (match server.find key with
      | none => server
      | some l => server.insert key (release l)) other = if key = other then release (lock server key) else lock server other := by
  cases got : server.find key with
  | none =>
    by_cases same : key = other
    · subst same
      simp [lock,got,idle]
    · simp [same]
  | some l =>
    rw [lock_insert]
    by_cases same : key = other
    · subst same
      simp [lock,got]
    · simp [same]

theorem lock_releaseForRead :
    lock (server.releaseForRead key id) other = if key = other then (lock server key).releaseForRead id else lock server other :=
  lock_release (fun l => l.releaseForRead id) (by simp [Lock.releaseForRead,Lock.new]) server

theorem lock_releaseForWrite :
    lock (server.releaseForWrite key id) other = if key = other then (lock server key).releaseForWrite id else lock server other :=
  lock_release (fun l => l.releaseForWrite id) (by simp [Lock.releaseForWrite,Lock.new]) server

theorem lock_dropLocks : lock (LockStore.dropLocks server id txn) key = (lock server key).drop id (txn.writes key) (txn.reads key) := by
  have writes : lock (txn.writeSet.entries.foldl (fun locks write => locks.releaseForWrite write.1 id) server) key =
      if txn.writes key then (lock server key).releaseForWrite id else lock server key := by
    rw [txn.writeSet.foldl_view key _ (fun server => lock server key) (fun l _ => l.releaseForWrite id)
      (fun b v _ => by rw [lock_releaseForWrite,if_pos rfl]) (fun b j v _ apart => by rw [lock_releaseForWrite,if_neg apart])]
    unfold Transaction.writes
    cases txn.writeSet.find key <;> simp
  unfold LockStore.dropLocks Lock.drop
  rw [txn.readSet.foldl_view key _ (fun server => lock server key) (fun l _ => l.releaseForRead id)
    (fun b v _ => by rw [lock_releaseForRead,if_pos rfl]) (fun b j v _ apart => by rw [lock_releaseForRead,if_neg apart]),writes]
  unfold Transaction.reads
  cases txn.readSet.find key <;> simp

structure Takes (id : Nat) (mayWrite : String → Nat → Prop) (before after : LockServer) : Prop where
  sound : (∀ key, (lock before key).Sound (mayWrite key)) → ∀ key, (lock after key).Sound (mayWrite key)
  others : ∀ key h, h ≠ id → h ∈ (lock after key).holders → h ∈ (lock before key).holders

variable {mayWrite : String → Nat → Prop}

theorem Takes.refl (server : LockServer) : Takes id mayWrite server server := ⟨fun sound => sound,fun _ _ _ held => held⟩

theorem Takes.trans (first : Takes id mayWrite a b) (second : Takes id mayWrite b c) : Takes id mayWrite a c :=
  ⟨fun sound => second.sound (first.sound sound),fun key h apart held => first.others key h apart (second.others key h apart held)⟩

theorem takes_lock (sound : (lock server key).Sound (mayWrite key) → l.Sound (mayWrite key))
    (others : ∀ h, h ≠ id → h ∈ l.holders → h ∈ (lock server key).holders) : Takes id mayWrite server (server.insert key l) := by
  refine ⟨fun all other => ?_,fun other h apart held => ?_⟩
  · rw [lock_insert]
    split
    next same =>
      exact same ▸ sound (all key)
    · exact all other
  rw [lock_insert] at held
  split at held
  next same =>
    exact same ▸ others h apart held
  · exact held

theorem takes_read : Takes id mayWrite server (server.lockForRead key id now later).1 := by
  refine takes_lock lockForRead_sound fun h apart held => ?_
  rw [lockForRead_holders] at held
  split at held
  · exact (Finset.mem_insert.mp held).resolve_left apart
  · exact held

theorem takes_write (may : mayWrite key id) : Takes id mayWrite server (server.lockForWrite key id now later).1 := by
  refine takes_lock (fun sound => lockForWrite_sound sound may) fun h apart held => ?_
  rw [lockForWrite_holders] at held
  split at held
  · exact (Finset.mem_insert.mp held).resolve_left apart
  · exact held

theorem takes_getLocks (server : LockServer) (txn : Transaction) (clock : Clock) (may : ∀ key, txn.writes key = true → mayWrite key id) :
    Takes id mayWrite server (LockStore.getLocks server id txn clock).1 := by
  have reads (xs : List (String × Timestamp)) (acc : LockServer × Bool) :
      Takes id mayWrite acc.1 (xs.foldl (LockStore.readLock id clock) acc).1 := by
    induction xs generalizing acc with
    | nil => exact .refl _
    | cons head rest ih => exact takes_read.trans (ih (LockStore.readLock id clock acc head))
  have writes (xs : List (String × String)) (within : ∀ x ∈ xs, mayWrite x.1 id) (acc : LockServer × Bool) :
      Takes id mayWrite acc.1 (xs.foldl (LockStore.writeLock id clock) acc).1 := by
    induction xs generalizing acc with
    | nil => exact .refl _
    | cons head rest ih =>
      have first : Takes id mayWrite acc.1 (LockStore.writeLock id clock acc head).1 := takes_write (within head List.mem_cons_self)
      exact first.trans (ih (fun x mem => within x (.tail _ mem)) _)
  refine (reads _ (server,true)).trans (writes _ (fun x mem => may x.1 ?_) _)
  exact Option.isSome_iff_exists.mpr ⟨x.2,OrdMap.mem_entries.mp mem⟩

end

section
variable {s t : System} {id : Nat}
open LockServer (lock)

-- A transaction that may hold write locks on a key: it is past its active phase, so its
-- write set no longer changes, and the key is in it.
def Writer (s : System) (key : String) (h : Nat) : Prop := (s.clients h).phase ≠ .active ∧ (s.clients h).txn.writes key = true

structure Sound (s : System) : Prop where
  locks : ∀ key, (lock s.store.locks key).Sound (Writer s key)
  still : ∀ id, (s.clients id).waiting ≠ none → (s.clients id).phase = .active
  known : ∀ id txn, s.store.prepared.find id = some txn → txn = (s.clients id).txn ∧ (s.clients id).phase ≠ .active
  answered : ∀ id, (s.clients id).phase = .preparing .ok → s.store.prepared.find id = some (s.clients id).txn
  held : ∀ id key, id ∈ (lock s.store.locks key).holders → id ∈ s.taken
  released : s.Released

structure Keeps (before after : BufferClient) : Prop where
  fixed : before.phase ≠ .active → after.phase ≠ .active ∧ after.txn = before.txn
  still : after.waiting ≠ none → after.phase = .active

theorem forall_set {client : BufferClient} {P : Nat → BufferClient → Prop} (own : P id client) (rest : ∀ j, j ≠ id → P j (s.clients j)) (j : Nat) :
    P j ((s.set id client).clients j) := by
  unfold System.set
  by_cases same : j = id
  · subst same
    simpa using own
  · simpa [same] using rest j same

theorem writer_set {client : BufferClient} (keeps : Keeps (s.clients id) client) (key : String) (h : Nat) :
    Writer s key h → Writer (s.set id client) key h := by
  refine forall_set (P := fun h c => Writer s key h → c.phase ≠ .active ∧ c.txn.writes key = true) ?_ (fun _ _ writer => writer) h
  intro writer
  obtain ⟨phase,txn⟩ := keeps.fixed writer.1
  exact ⟨phase,txn ▸ writer.2⟩

theorem mem_entries_of_held (held : h ∈ (lock server key).holders) : (key,lock server key) ∈ server.entries := by
  refine OrdMap.mem_entries.mpr ?_
  cases got : server.find key with
  | none => simp [lock,got,Lock.new] at held
  | some l => simp [lock,got]

theorem took_kept (store : LockStore) : ∀ j ∈ s.taken, j ∈ s.took store id := by
  intro j mem
  unfold System.took
  split
  · exact .tail _ mem
  · exact mem

theorem took_held (store : LockStore) (key : String) (held : id ∈ (lock store.locks key).holders) : id ∈ s.took store id := by
  have holds : store.HoldsLock id := ⟨_,mem_entries_of_held held,held⟩
  simp [System.took,holds]

section
variable (sound : Sound s)
include sound

theorem Sound.update (id : Nat) (client : BufferClient) (keeps : Keeps (s.clients id) client) (store : LockStore)
    (locks : ∀ key, (lock store.locks key).Sound (Writer (s.set id client) key))
    (others : ∀ key h, h ≠ id → h ∈ (lock store.locks key).holders → h ∈ (lock s.store.locks key).holders)
    (own : client.phase = .ended → ∀ key, id ∉ (lock store.locks key).holders)
    (prepared : ∀ j, j ≠ id → store.prepared.find j = s.store.prepared.find j)
    (known : ∀ txn, store.prepared.find id = some txn → txn = client.txn ∧ client.phase ≠ .active)
    (answered : client.phase = .preparing .ok → store.prepared.find id = some client.txn) (gets replies : List (Nat × String))
    (taken : List Nat) (kept : ∀ j ∈ s.taken, j ∈ taken) (held : ∀ key, id ∈ (lock store.locks key).holders → id ∈ taken) :
    Sound ⟨store,(s.set id client).clients,gets,replies,taken⟩ where
  locks := locks
  still := forall_set (P := fun _ c => c.waiting ≠ none → c.phase = .active) keeps.still (fun j _ => sound.still j)
  known := forall_set (P := fun j c => ∀ txn, store.prepared.find j = some txn → txn = c.txn ∧ c.phase ≠ .active) known
    (fun j apart txn got => sound.known j txn (prepared j apart ▸ got))
  answered := forall_set (P := fun j c => c.phase = .preparing .ok → store.prepared.find j = some c.txn) answered
    (fun j apart phase => (prepared j apart).trans (sound.answered j phase))
  held := fun j key holds => by
    by_cases own : j = id
    · exact own ▸ held key (own ▸ holds)
    · exact kept j (sound.held j key (others key j own holds))
  released := forall_set (P := fun j c => c.phase = .ended → ∀ key, j ∉ (lock store.locks key).holders) own
    (fun j apart ended key held => sound.released j ended key (others key j apart held))

theorem Sound.touch (active : (s.clients id).phase = .active) (client : BufferClient) (after : client.phase = .active)
    (gets replies : List (Nat × String)) : Sound ⟨s.store,(s.set id client).clients,gets,replies,s.taken⟩ := by
  have keeps : Keeps (s.clients id) client := ⟨fun apart => absurd active apart,fun _ => after⟩
  refine sound.update id _ keeps s.store (fun key => (sound.locks key).imp fun h _ => writer_set keeps key h) (fun _ _ _ held => held) ?_
    (fun _ _ => rfl) (fun txn got => absurd active (sound.known id txn got).2) ?_ gets replies s.taken (fun _ mem => mem) (sound.held id)
  · intro ended
    cases after.symm.trans ended
  · intro ready
    cases after.symm.trans ready

theorem serve_sound (going : (s.clients id).phase ≠ .ended) (replies : List (Nat × String)) :
    Sound {s with store := (s.store.get id key now later).1, replies, taken := s.took (s.store.get id key now later).1 id} := by
  have same : (s.set id (s.clients id)).clients = s.clients := update_eq_self ..
  have takes : Takes id (Writer s) s.store.locks (s.store.get id key now later).1.locks ∧
      (s.store.get id key now later).1.prepared = s.store.prepared := by
    unfold LockStore.get
    split
    · exact ⟨.refl _,rfl⟩
    · exact ⟨takes_read,rfl⟩
  have whole : s.set id (s.clients id) = s := by
    unfold System.set
    rw [update_eq_self]
  have result := sound.update id (s.clients id) ⟨fun apart => ⟨apart,rfl⟩,sound.still id⟩ (s.store.get id key now later).1
    (fun key => by rw [whole]; exact takes.1.sound sound.locks key) takes.1.others (fun ended => absurd ended going)
    (fun j _ => by rw [takes.2]) (fun txn got => sound.known id txn (takes.2 ▸ got))
    (fun ready => takes.2 ▸ sound.answered id ready) s.gets replies _ (took_kept _) (took_held _)
  rwa [same] at result

theorem prepare_sound (quiet : (s.clients id).waiting = none) :
    Sound {s.set id {s.clients id with phase := .preparing (s.store.prepare id (s.clients id).txn clock).2} with
      store := (s.store.prepare id (s.clients id).txn clock).1, taken := s.took (s.store.prepare id (s.clients id).txn clock).1 id} := by
  have keeps (code : ReplyCode) : Keeps (s.clients id) {s.clients id with phase := .preparing code} :=
    ⟨fun _ => ⟨(by simp),rfl⟩,fun waits => absurd quiet waits⟩
  have held (code : ReplyCode) (key : String) := (sound.locks key).imp fun h _ => writer_set (keeps code) key h
  unfold LockStore.prepare
  cases got : s.store.prepared.find id with
  | some txn =>
    rw [if_pos (by simp)]
    have mine := (sound.known id txn got).1
    exact sound.update id _ (keeps .ok) s.store (held .ok) (fun _ _ _ held => held) (fun ended => by cases ended) (fun _ _ => rfl)
      (fun other there => by cases got.symm.trans there; exact ⟨mine,by simp⟩) (fun _ => by rw [got,mine]) s.gets s.replies
      _ (took_kept _) (took_held _)
  | none =>
    rw [if_neg (by simp)]
    have takes (code : ReplyCode) : Takes id (Writer (s.set id {s.clients id with phase := .preparing code})) s.store.locks
        (LockStore.getLocks s.store.locks id (s.clients id).txn clock).1 :=
      takes_getLocks _ _ _ fun key writes => by simpa [Writer,System.set] using writes
    dsimp only
    split
    · exact sound.update id _ (keeps .ok) _ ((takes .ok).sound (held .ok)) (takes .ok).others (fun ended => by cases ended)
        (fun j apart => by simp [Ne.symm apart]) (fun txn there => by
          simp only [OrdMap.find_insert,if_true,Option.some.injEq] at there
          exact ⟨there.symm,by simp⟩) (fun _ => by simp) s.gets s.replies _ (took_kept _) (took_held _)
    refine sound.update id _ (keeps .retry) {s.store with locks := (LockStore.getLocks s.store.locks id (s.clients id).txn clock).1}
      ((takes .retry).sound (held .retry)) (takes .retry).others (fun ended => by cases ended) (fun _ _ => rfl)
      (fun txn there => ?_) (fun ready => by cases ready) s.gets s.replies _ (took_kept _) (took_held _)
    exact absurd (got.symm.trans there) (by simp)

theorem end_sound (quiet : (s.clients id).waiting = none) (txn : Transaction) (store : LockStore)
    (dropped : store.locks = LockStore.dropLocks s.store.locks id txn) (erased : store.prepared = s.store.prepared.erase id)
    (writes : ∀ key, id ∈ (lock s.store.locks key).holders → (lock s.store.locks key).state.Writes → txn.writes key = true)
    (reads : ∀ key, id ∈ (lock s.store.locks key).holders →
      (lock s.store.locks key).state = .lockedForRead ∨ (lock s.store.locks key).state = .lockedForReadWrite → txn.reads key = true) :
    Sound {s.set id {s.clients id with phase := .ended} with store} := by
  have gone (key : String) : id ∉ (lock store.locks key).holders := by
    rw [dropped,lock_dropLocks]
    exact drop_releases (sound.locks key) (writes key) (reads key)
  have keeps : Keeps (s.clients id) {s.clients id with phase := .ended} := ⟨fun _ => ⟨(by simp),rfl⟩,fun waits => absurd quiet waits⟩
  refine sound.update id _ keeps store (fun key => ?_) (fun key h apart held => ?_) (fun _ => gone) (fun j apart => ?_)
    (fun txn got => ?_) (fun ready => by cases ready) s.gets s.replies s.taken (fun _ mem => mem) (fun key held => absurd held (gone key))
  · rw [dropped,lock_dropLocks]
    exact drop_sound ((sound.locks key).imp fun h _ => writer_set keeps key h)
  · rw [dropped,lock_dropLocks] at held
    exact drop_holders held
  · rw [erased,OrdMap.find_erase,if_neg (Ne.symm apart)]
  · rw [erased,OrdMap.find_erase,if_pos rfl] at got
    cases got

theorem commit_sound (ready : (s.clients id).phase = .preparing .ok) (guarded : s.Guarded (.commit id timestamp)) :
    Sound {s.set id {s.clients id with phase := .ended} with store := s.store.commit id timestamp} := by
  have quiet : (s.clients id).waiting = none := by
    by_contra waits
    cases (sound.still id waits).symm.trans ready
  have mine : s.store.preparedAs id = (s.clients id).txn := by
    unfold LockStore.preparedAs
    rw [sound.answered id ready]
    rfl
  refine end_sound sound quiet (s.clients id).txn _ (by rw [← mine]; rfl) rfl
    (fun key held writes => ((sound.locks key).written writes id held).2) (fun key held reads => ?_)
  exact guarded _ (mem_entries_of_held held) held reads

theorem abort_sound (quiet : (s.clients id).waiting = none) (guarded : s.Guarded (.abort id)) :
    Sound {s.set id {s.clients id with phase := .ended} with store := s.store.abort id .empty} := by
  have none_held (key : String) : id ∉ (lock s.store.locks key).holders := fun held => guarded (sound.held id key held)
  exact end_sound sound quiet .empty _ rfl rfl (fun key held => absurd held (none_held key)) (fun key held => absurd held (none_held key))

theorem step_sound (guarded : s.Guarded act) (taken : s.step act = some t) : Sound t := by
  cases act with
  | put id key value =>
    obtain ⟨idle,rfl⟩ := of_guard taken
    exact sound.touch idle.1 ({s.clients id with txn := (s.clients id).txn.addWriteSet key value}) idle.1 s.gets s.replies
  | get id key =>
    simp only [System.step] at taken
    split at taken
    next idle =>
      split at taken
      · cases Option.some.inj taken
        exact sound
      · cases Option.some.inj taken
        exact sound.touch idle.1 ({s.clients id with waiting := some key}) idle.1 _ s.replies
    · cases taken
  | serve id key now later =>
    obtain ⟨_,rfl⟩ := of_guard taken
    exact serve_sound sound guarded _
  | reply id key =>
    obtain ⟨answered,rfl⟩ := of_guard taken
    have active := sound.still id (by rw [answered.1]; simp)
    exact sound.touch active ({s.clients id with waiting := none, txn := (s.clients id).txn.addReadSet key .zero})
      active s.gets s.replies
  | giveUp id =>
    obtain ⟨waits,rfl⟩ := of_guard taken
    have active := sound.still id (by intro none_there; rw [none_there] at waits; cases waits)
    exact sound.touch active ({s.clients id with waiting := none}) active s.gets s.replies
  | prepare id clock =>
    obtain ⟨open_now,rfl⟩ := of_guard taken
    exact prepare_sound sound open_now.1
  | commit id timestamp =>
    obtain ⟨ready,rfl⟩ := of_guard taken
    exact commit_sound sound ready guarded
  | abort id =>
    obtain ⟨open_now,rfl⟩ := of_guard taken
    exact abort_sound sound open_now.1 guarded
  | load key value =>
    cases Option.some.inj taken
    exact ⟨sound.locks,sound.still,sound.known,sound.answered,sound.held,sound.released⟩

end

theorem new_sound : Sound System.new where
  locks := fun key => ⟨fun _ => rfl,fun _ => by simp [System.new,LockStore.new,lock,Lock.new],fun _ h held => by
    simp [System.new,LockStore.new,lock,Lock.new] at held⟩
  still := fun id waits => absurd rfl waits
  known := fun id txn got => by cases got
  answered := nofun
  held := fun id key held => by simp [System.new,LockStore.new,lock,Lock.new] at held
  released := nofun

end

end DbExp.Tapir.Locking
