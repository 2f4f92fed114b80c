import DbExp.Janus.BrqInvariant

namespace DbExp.Janus
open Status (cmt pac)

section
variable (d : Deployment) (s : System) (t : Txn)

def Majorities : Prop :=
  ∀ par ∈ d.partitions t, Coord.getSlowQuorum d par ≤ ((sites d par).filter fun site => (t,site) ∈ s.accepted).length

instance : Decidable (Majorities d s t) := by unfold Majorities; infer_instance

def CommitsLate : Prop :=
  (s.coords t).fastPath = false → (s.coords t).phase = .commit → Majorities d s t

def KnownLate : Prop :=
  (s.coords t).fastPath = false → ∀ site, cmt ≤ ((s.replicas site).sched.info t).status → Majorities d s t

def SlowPathSafe : Prop := CommitsLate d s t ∧ KnownLate d s t

end

-- The first server that handles an Accept knows the transaction as committing.
theorem accept_unsafe (reached : (brq d).Reached Careful s) (done : s.step d (.deliver (.accept t site graph)) = some s')
    (slow : (s'.coords t).fastPath = false) (few : ¬ Majorities d s' t) : ¬ SlowPathSafe d s' t := by
  have inv := inv_of_reached reached
  simp only [System.step] at done
  split at done
  next sent =>
    obtain ⟨_,⟨c,mem,rfl,late⟩,_⟩ := inv.messages _ sent
    obtain ⟨_,handled,rfl⟩ := Option.map_eq_some_iff.mp done
    obtain ⟨q,does,rfl⟩ := Option.map_eq_some_iff.mp handled
    intro safe
    refine few (safe.2 slow site (late.trans ?_))
    simp only [System.replicaDoes,Function.update_self]
    exact (Sched.onAccept_parts (inv.replicas site).sound.plain does).2 c mem
  · cases done

def Message.accepts (t : Txn) : Message → Bool
  | .accept u _ _ => u = t
  | _ => false

def Unaccepted (t : Txn) (s : System) (e : Event) : Prop :=
  Careful s e ∧ match e with
    | .deliver m => m.accepts t = false
    | _ => True

theorem receive_accepted {s : System} (done : s.receive d m = some s') (other : m.accepts t = false) :
    t ∈ s'.accepted.map Prod.fst → t ∈ s.accepted.map Prod.fst := by
  cases m with
  | accept u site graph =>
    obtain ⟨e,_,rfl⟩ := Option.map_eq_some_iff.mp done
    intro mem
    rcases List.mem_cons.mp mem with same | before
    · simp [Message.accepts,same] at other
    · exact before
  | preAccept u site graph | commit u site graph =>
    cases graph with
    | some graph =>
      cases done
      exact id
    | none =>
      obtain ⟨e,_,rfl⟩ := Option.map_eq_some_iff.mp done
      exact id
  | inquireAck u asker graph =>
    cases done
    exact id
  | _ =>
    obtain ⟨e,_,rfl⟩ := Option.map_eq_some_iff.mp done
    exact id

theorem step_accepted {s : System} (allowed : Unaccepted t s e) (done : s.step d e = some s') :
    t ∈ s'.accepted.map Prod.fst → t ∈ s.accepted.map Prod.fst := by
  cases e with
  | dispatch u site columns =>
    obtain ⟨_,rfl⟩ := of_guard done
    exact id
  | preAccept u =>
    simp only [System.step] at done
    split at done
    · obtain ⟨e,_,rfl⟩ := Option.map_eq_some_iff.mp done
      exact id
    · cases done
  | deliver m =>
    simp only [System.step] at done
    split at done
    · have kept := receive_accepted done allowed.2
      exact kept
    · cases done
  | visit site v nearest =>
    obtain ⟨e,_,rfl⟩ := Option.map_eq_some_iff.mp done
    exact id

theorem unaccepted_of_reached (reached : (brq d).Reached (Unaccepted t) s) : t ∉ s.accepted.map Prod.fst := by
  refine reached.invariant (fun s => t ∉ s.accepted.map Prod.fst) (by simp [brq]) ?_
  intro s e s' _ before allowed done mem
  exact before (step_accepted allowed done mem)

-- As long as no server handles an Accept of a transaction on the slow path, nobody knows
-- it as committing.
theorem slow_path_safe_of_unaccepted (d : Deployment) (s : System) (t : Txn) (reached : (brq d).Reached (Unaccepted t) s) :
    SlowPathSafe d s t := by
  have inv : Inv s := inv_of_reached (reached.weaken fun _ _ allowed => allowed.1)
  have untaken : (s.coords t).fastPath = false → ¬ s.Taken t := by
    intro slow taken
    rcases taken with fast | accepted
    · rw [slow] at fast
      cases fast
    · exact unaccepted_of_reached reached accepted
  refine ⟨?_,?_⟩
  · intro slow committed
    exact absurd (inv.backed t committed) (untaken slow)
  intro slow site late
  have none_yet : s.granted t = none := by
    unfold System.granted
    rw [if_neg (untaken slow)]
  exact absurd late (Nat.not_le.mpr ((inv.replicas site).status_none none_yet))

instance (s : System) (e : Event) : Decidable (Careful s e) := by
  unfold Careful; split <;> infer_instance

instance (t : Txn) (s : System) (e : Event) : Decidable (Unaccepted t s e) := by
  cases e <;> dsimp only [Unaccepted] <;> infer_instance

def pair : Deployment := ⟨fun _ => 2,fun _ => [0],fun _ _ => [0]⟩

def first : Site := ⟨0,0⟩

def second : Site := ⟨0,1⟩

def alone (t : Txn) (status : Status) : Carried := ⟨t,status,[],{0},0⟩

def after (t u : Txn) : List Carried := [⟨t,pac,[u],{0},0⟩,alone u 0]

def proposal : Txn → List Carried
  | 1 => [alone 1 (pac ||| cmt),alone 2 0]
  | _ => [alone 1 0,alone 2 (pac ||| cmt)]

def begin (t : Txn) (site : Site) : List Event :=
  [.dispatch t site [0],.deliver (.dispatch t site [0]),.deliver (.dispatchAck t [alone t 0]),.preAccept t]

def preAccepted : List Event :=
  begin 1 first ++ begin 2 second ++
    ([.deliver (.preAccept 1 first none),.deliver (.preAccept 1 second none),.deliver (.preAccept 2 first none),
      .deliver (.preAccept 2 second none),.deliver (.preAcceptAck 1 0 (after 1 2)),
      .deliver (.preAcceptAck 1 0 [alone 1 pac])] : List Event)

-- Transaction 1 takes the slow path and its Accepts are on the way.
theorem slow_path_safe_of_unaccepted_pair : ∃ s : System, (s.coords 1).phase = .accept ∧ (s.coords 1).fastPath = false ∧
    SlowPathSafe pair s 1 := by
  obtain ⟨s,reached,phase,slow⟩ := Machine.reached_of_run (brq pair) (Unaccepted 1)
    (fun s => (s.coords 1).phase = .accept ∧ (s.coords 1).fastPath = false) preAccepted (by decide +kernel)
  exact ⟨s,phase,slow,slow_path_safe_of_unaccepted pair s 1 reached⟩

-- The Accept carries the status of a committed transaction, and the acknowledgements of
-- the pre-accepts are counted again for it: one acknowledgement is enough.
theorem first_acceptance_commits : (¬ ∀ (d : Deployment) (s : System) (t : Txn), (brq d).Reached Machine.anyStep s → CommitsLate d s t) ∧
    ¬ ∀ (d : Deployment) (s : System) (t : Txn), (brq d).Reached Machine.anyStep s → KnownLate d s t := by
  refine ⟨fun claim => ?_,fun claim => ?_⟩
  · obtain ⟨s,reached,slow,committed,few⟩ := Machine.reached_of_run (brq pair) Machine.anyStep
      (fun s => (s.coords 1).fastPath = false ∧ (s.coords 1).phase = .commit ∧ ¬ Majorities pair s 1)
      (preAccepted ++ [.deliver (.accept 1 first (proposal 1)),.deliver (.acceptAck 1 first)]) (by decide +kernel)
    exact few (claim pair s 1 reached slow committed)
  obtain ⟨s,reached,slow,known,few⟩ := Machine.reached_of_run (brq pair) Machine.anyStep
    (fun s => (s.coords 1).fastPath = false ∧ cmt ≤ ((s.replicas first).sched.info 1).status ∧ ¬ Majorities pair s 1)
    (preAccepted ++ [.deliver (.accept 1 first (proposal 1))]) (by decide +kernel)
  exact few (claim pair s 1 reached slow first known)

end DbExp.Janus
