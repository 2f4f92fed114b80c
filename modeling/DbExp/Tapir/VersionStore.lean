import DbExp.Tapir.Transaction

namespace DbExp.Tapir

-- store/common/backend/versionstore.cc: for every key its versions in timestamp
-- order, and for a version the last committed read of it.
structure VersionedKVStore where
  store : OrdMap String (OrdMap Timestamp String)
  lastReads : OrdMap String (OrdMap Timestamp Timestamp)
  deriving DecidableEq

namespace VersionedKVStore

def empty : VersionedKVStore := ⟨.empty,.empty⟩

section
variable (s : VersionedKVStore)

section
variable (key : String)

def versions : OrdMap Timestamp String := (s.store.find key).getD .empty

def inStore : Bool := 0 < (s.versions key).size

def getValue (t : Timestamp) : Option (Timestamp × String) := (s.versions key).atMost t

def get : Option (Timestamp × String) :=
  if s.inStore key then (s.versions key).last else none

def getAt (t : Timestamp) : Option (Timestamp × String) :=
  if s.inStore key then s.getValue key t else none

-- The end of the range keeps the value it was constructed with when the version is
-- the last one.
def getRange (t : Timestamp) : Option (Timestamp × Timestamp) :=
  if s.inStore key then
    (s.getValue key t).map fun it => (it.1,(((s.versions key).upperBound it.1).map Prod.fst).getD .zero)
  else none

end

def put (key value : String) (t : Timestamp) : VersionedKVStore :=
  {s with store := s.store.insert key ((s.versions key).add t value)}

-- A read is noted only where an earlier read of the version has been noted.
def commitGet (key : String) (readTime commit : Timestamp) : VersionedKVStore :=
  if s.inStore key then
    match s.getValue key readTime with
    | none => s
    | some it =>
      match s.lastReads.find key with
      | none => s
      | some reads =>
        match reads.find it.1 with
        | none => s
        | some last => if last < commit then {s with lastReads := s.lastReads.insert key (reads.insert it.1 commit)} else s
  else s

def getLastRead (key : String) : Option Timestamp :=
  if s.inStore key then
    (s.versions key).last.bind fun v => (s.lastReads.find key).bind fun reads => reads.find v.1
  else none

-- The table of reads is looked at before the version is: with no read noted for the
-- key, the iterator is not used.
def getLastReadAt (key : String) (t : Timestamp) : Option Timestamp :=
  if s.inStore key then
    (s.lastReads.find key).bind fun reads => (s.getValue key t).bind fun it => reads.find it.1
  else none

end

theorem inStore_iff {s : VersionedKVStore} : s.inStore key = true ↔ (s.versions key).keys.Nonempty := by
  rw [← Finset.card_pos,OrdMap.card_keys]
  simp [inStore]

theorem versions_put (s : VersionedKVStore) (key other value : String) (t : Timestamp) :
    (s.put key value t).versions other = if key = other then (s.versions key).add t value else s.versions other := by
  unfold versions put
  rw [OrdMap.find_insert]
  split <;> rfl

theorem mem_put {s : VersionedKVStore} :
    w ∈ ((s.put key value t).versions other).keys ↔ key = other ∧ w = t ∨ w ∈ (s.versions other).keys := by
  rw [versions_put]
  by_cases same : key = other
  · subst same
    simp [OrdMap.mem_keys_add]
  · simp [same]

theorem mem_foldl_put (puts : List (String × String × Timestamp)) (s : VersionedKVStore) :
    w ∈ ((puts.foldl (fun s put => s.put put.1 put.2.1 put.2.2) s).versions key).keys ↔
      w ∈ (s.versions key).keys ∨ ∃ put ∈ puts, put.1 = key ∧ w = put.2.2 := by
  induction puts generalizing s with
  | nil => simp
  | cons head rest ih =>
    rw [List.foldl_cons,ih,mem_put]
    simp only [List.mem_cons,exists_eq_or_imp]
    tauto

theorem versions_commitGet (s : VersionedKVStore) (key : String) (readTime commit : Timestamp) (other : String) :
    (s.commitGet key readTime commit).versions other = s.versions other := by
  unfold commitGet
  split
  · split
    · rfl
    split
    · rfl
    · split
      · rfl
      · split <;> rfl
  · rfl

theorem get_le {s : VersionedKVStore} (latest : s.get key = some e) (version : w ∈ (s.versions key).keys) : w ≤ e.1 := by
  unfold get at latest
  split at latest
  · exact OrdMap.last_le latest version
  · cases latest

theorem get_none {s : VersionedKVStore} (absent : s.get key = none) : w ∉ (s.versions key).keys := by
  intro version
  unfold get at absent
  rw [if_pos (inStore_iff.mpr ⟨w,version⟩)] at absent
  exact OrdMap.last_none absent version

theorem getRange_present {s : VersionedKVStore} (version : v ∈ (s.versions key).keys) :
    s.getRange key v = some (v,(((s.versions key).upperBound v).map Prod.fst).getD .zero) := by
  obtain ⟨_,got⟩ := OrdMap.atMost_self version
  unfold getRange getValue
  rw [if_pos (inStore_iff.mpr ⟨v,version⟩),got]
  rfl

section
variable (s : VersionedKVStore) (key : String) (t : Timestamp)

theorem get_eq : s.get key = (s.versions key).last := by
  unfold get inStore OrdMap.last OrdMap.size
  cases (s.versions key).entries <;> rfl

theorem getAt_eq : s.getAt key t = (s.versions key).atMost t := by
  unfold getAt inStore getValue OrdMap.atMost OrdMap.size
  cases (s.versions key).entries <;> rfl

theorem getRange_eq : s.getRange key t = (s.getAt key t).map fun it =>
    (it.1,(((s.versions key).upperBound it.1).map Prod.fst).getD .zero) := by
  unfold getRange getAt
  split <;> rfl

end

def stored (puts : List (String × String × Timestamp)) : VersionedKVStore :=
  puts.foldl (fun s put => s.put put.1 put.2.1 put.2.2) empty

theorem find_stored {puts : List (String × String × Timestamp)} (once : (puts.map fun put => (put.1,put.2.2)).Nodup) :
    ((stored puts).versions key).find w = some v ↔ (key,v,w) ∈ puts := by
  induction puts using List.reverseRecOn generalizing v with
  | nil => simp [stored,versions,empty]
  | append_singleton puts last ih =>
    obtain ⟨k,x,t⟩ := last
    rw [List.map_append,List.nodup_append] at once
    have fresh (y : String) : (k,y,t) ∉ puts := fun mem =>
      once.2.2 _ (List.mem_map_of_mem mem) _ (List.mem_singleton_self _) rfl
    have step : stored (puts ++ [(k,x,t)]) = (stored puts).put k x t := by simp [stored,List.foldl_append]
    rw [step,versions_put,List.mem_append,List.mem_singleton,← ih once.1]
    by_cases here : k = key
    · subst here
      rw [if_pos rfl,OrdMap.find_add]
      by_cases same : t = w
      · subst same
        have absent : ((stored puts).versions k).find t = none :=
          Option.eq_none_iff_forall_ne_some.mpr fun y got => fresh y ((ih once.1).mp got)
        simp [absent,eq_comm]
      · simp [same,Ne.symm same]
    · simp [here,Ne.symm here]

-- The order of the calls is that of the list, and only membership in it is read back.
theorem reads_latest_put (puts : List (String × String × Timestamp)) (once : (puts.map fun put => (put.1,put.2.2)).Nodup)
    (key : String) (t : Timestamp) :
    OrdMap.Greatest (fun w v => (key,v,w) ∈ puts) (fun _ => True) ((stored puts).get key) ∧
    OrdMap.Greatest (fun w v => (key,v,w) ∈ puts) (· ≤ t) ((stored puts).getAt key t) ∧
    ((stored puts).getRange key t).map Prod.fst = ((stored puts).getAt key t).map Prod.fst ∧
    ∀ range ∈ (stored puts).getRange key t, ∀ w v, (key,v,w) ∈ puts → range.1 < w →
      range.1 < range.2 ∧ range.2 ≤ w ∧ ∃ v, (key,v,range.2) ∈ puts := by
  have same : (fun w v => (key,v,w) ∈ puts) = fun w v => ((stored puts).versions key).find w = some v :=
    funext fun w => funext fun v => propext (find_stored once).symm
  refine ⟨?_,?_,?_,?_⟩
  · rw [same,get_eq]
    exact OrdMap.greatest_last _
  · rw [same,getAt_eq]
    exact OrdMap.greatest_atMost _ t
  · rw [getRange_eq,Option.map_map]
    rfl
  intro range mem w v put less
  rw [getRange_eq] at mem
  obtain ⟨it,_,rfl⟩ := Option.map_eq_some_iff.mp mem
  have there := OrdMap.mem_keys.mpr ⟨v,(find_stored once).mpr put⟩
  cases found : ((stored puts).versions key).upperBound it.1 with
  | none => exact absurd (OrdMap.upperBound_none found there) (not_le.mpr less)
  | some next =>
    obtain ⟨above,present,least⟩ := OrdMap.upperBound_some found
    obtain ⟨x,got⟩ := OrdMap.mem_keys.mp present
    exact ⟨above,least w there less,x,(find_stored once).mp got⟩

theorem reads_latest_put_late : (stored [("k","b",⟨2,1⟩),("k","a",⟨1,1⟩)]).getRange "k" ⟨1,5⟩ = some (⟨1,1⟩,⟨2,1⟩) ∧
    ∃ v, ("k",v,(⟨2,1⟩ : Timestamp)) ∈ [("k","b",⟨2,1⟩),("k","a",⟨1,1⟩)] := by
  have range : (stored [("k","b",⟨2,1⟩),("k","a",⟨1,1⟩)]).getRange "k" ⟨1,5⟩ = some (⟨1,1⟩,⟨2,1⟩) := by decide +kernel
  have reads := reads_latest_put [("k","b",⟨2,1⟩),("k","a",⟨1,1⟩)] (by decide) "k" ⟨1,5⟩
  exact ⟨range,(reads.2.2.2 _ range ⟨2,1⟩ "b" (.head _) (by decide)).2.2⟩

inductive Call where
  | put (key value : String) (t : Timestamp)
  | commitGet (key : String) (readTime commit : Timestamp)

def step (s : VersionedKVStore) : Call → VersionedKVStore
  | .put key value t => s.put key value t
  | .commitGet key readTime commit => s.commitGet key readTime commit

def run (calls : List Call) : VersionedKVStore := calls.foldl step empty

-- The commit timestamps of the reads of a version, each read resolved when it was made.
def commits (key : String) (w : Timestamp) : VersionedKVStore → List Call → List Timestamp
  | _,[] => []
  | s,call :: rest =>
    let later := commits key w (s.step call) rest
    match call with
    | .put .. => later
    | .commitGet k readTime commit => if k = key ∧ (s.getAt k readTime).map Prod.fst = some w then commit :: later else later

theorem commitGet_none {s : VersionedKVStore} (none : s.lastReads = .empty) : s.commitGet key readTime commit = s := by
  unfold commitGet
  rw [none]
  split
  · split <;> rfl
  · rfl

theorem run_lastReads (calls : List Call) : (run calls).lastReads = .empty := by
  induction calls using List.reverseRecOn with
  | nil => rfl
  | append_singleton calls call ih =>
    have step : run (calls ++ [call]) = (run calls).step call := by simp [run,List.foldl_append]
    rw [step]
    cases call with
    | put key value t => exact ih
    | commitGet key readTime commit =>
      rw [VersionedKVStore.step,commitGet_none ih]
      exact ih

-- No read is ever noted, so the answer is right for the versions that nobody has read.
theorem lastRead_iff_unread (calls : List Call) (key : String) (t : Timestamp) : ∀ it ∈ (run calls).getAt key t,
    (run calls).getLastReadAt key t = (commits key it.1 empty calls).max? ↔ commits key it.1 empty calls = [] := by
  intro it _
  have silent : (run calls).getLastReadAt key t = none := by
    unfold getLastReadAt
    rw [run_lastReads]
    split <;> rfl
  rw [silent,eq_comm,List.max?_eq_none_iff]

theorem lastRead_iff_unread_put : (run [.put "k" "v" ⟨1,1⟩]).getLastReadAt "k" ⟨3,1⟩ = none :=
  (lastRead_iff_unread [.put "k" "v" ⟨1,1⟩] "k" ⟨3,1⟩ (⟨1,1⟩,"v") (by decide +kernel)).mpr rfl

theorem first_read_forgotten : ¬ ∀ (calls : List Call) (key : String) (t : Timestamp) (it : Timestamp × String),
    (run calls).getAt key t = some it → (run calls).getLastReadAt key t = (commits key it.1 empty calls).max? := by
  intro noted
  have same := noted [.put "k" "v" ⟨1,1⟩,.commitGet "k" ⟨1,1⟩ ⟨2,1⟩] "k" ⟨3,1⟩ (⟨1,1⟩,"v") (by decide +kernel)
  exact absurd same (by decide +kernel)

end VersionedKVStore

namespace Transaction

def puts (txn : Transaction) (timestamp : Timestamp) : List (String × String × Timestamp) :=
  txn.writeSet.entries.map fun write => (write.1,write.2,timestamp)

theorem mem_puts {txn : Transaction} :
    (∃ put ∈ txn.puts timestamp, put.1 = key ∧ w = put.2.2) ↔ txn.writes key = true ∧ w = timestamp := by
  constructor
  · rintro ⟨put,mem,rfl,rfl⟩
    obtain ⟨write,listed,rfl⟩ := List.mem_map.mp mem
    exact ⟨Option.isSome_iff_exists.mpr ⟨write.2,OrdMap.mem_entries.mp listed⟩,rfl⟩
  · rintro ⟨writes,rfl⟩
    obtain ⟨value,got⟩ := Option.isSome_iff_exists.mp writes
    exact ⟨(key,value,w),List.mem_map.mpr ⟨(key,value),OrdMap.mem_entries.mpr got,rfl⟩,rfl,rfl⟩

end Transaction
end DbExp.Tapir
