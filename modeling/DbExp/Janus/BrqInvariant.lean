import DbExp.Janus.BrqSafety

namespace DbExp.Janus
open Sched
open Option (map_eq_some_iff bind_eq_some_iff)
open List
open Status (cmt)

def Early (graph : List Carried) : Prop := ∀ c ∈ graph, c.status < cmt

def Only (t : Txn) (graph : List Carried) : Prop := ∀ c ∈ graph, c.txn ≠ t → c.status < cmt

def Marks (t : Txn) (graph : List Carried) : Prop := ∃ c ∈ graph, c.txn = t ∧ cmt ≤ c.status

theorem Early.carries (early : Early graph) : Carries granted graph := fun c mem => Fits.early (early c mem)

namespace Graph

def Early (g : Graph) : Prop := ∀ u v, g.find u = some v → v.status < cmt

structure Proposes (g : Graph) (t : Txn) : Prop where
  small : ∀ u v, g.find u = some v → v.status < 32
  others : ∀ u v, g.find u = some v → u ≠ t → v.status < cmt

theorem Early.proposes {g : Graph} (early : g.Early) (t : Txn) : g.Proposes t where
  small := fun u v got => (early u v got).trans (by decide)
  others := fun u v got _ => early u v got

theorem Early.aggregateVertex {g : Graph} (early : g.Early) (low : c.status < cmt) : (g.aggregateVertex c).Early := by
  intro u v got
  unfold Graph.aggregateVertex at got
  rw [OrdMap.find_insert] at got
  split at got
  · cases got
    split
    · exact low
    next w was =>
      rw [merge_status]
      exact or_early (early c.txn w was) low
  · exact early u v got

theorem Early.aggregate {g : Graph} (early : g.Early) (low : Janus.Early graph) : (g.aggregate graph).Early :=
  List.foldlRecOn graph Graph.aggregateVertex early fun _ before c mem => before.aggregateVertex (low c mem)

theorem upgradeStatus_parents (g : Graph) (t : Txn) (status : Status) :
    ((g.upgradeStatus t status).find t).map Vertex.parents = (g.find t).map Vertex.parents := by
  unfold upgradeStatus
  split
  · rfl
  next v got =>
    rw [OrdMap.find_insert,if_pos rfl,got]
    rfl

theorem Proposes.upgrade {g : Graph} (proposes : g.Proposes t) : (g.upgradeStatus t cmt).Proposes t := by
  unfold upgradeStatus
  split
  · exact proposes
  rename_i v got
  refine ⟨?_,?_⟩
  · intro u w there
    rw [OrdMap.find_insert] at there
    split at there
    · cases there
      exact or_small (proposes.small t v got) (by decide)
    · exact proposes.small u w there
  · intro u w there apart
    rw [OrdMap.find_insert,if_neg (Ne.symm apart)] at there
    exact proposes.others u w there apart

theorem mem_carried {g : Graph} (mem : c ∈ g.carried) : ∃ v, g.find c.txn = some v ∧ c.status = v.status ∧ c.parents = v.parents := by
  obtain ⟨⟨_,v⟩,entry,rfl⟩ := mem_map.mp mem
  exact ⟨v,OrdMap.mem_entries.mp entry,rfl,rfl⟩

theorem Early.carried {g : Graph} (early : g.Early) : Janus.Early g.carried := by
  intro c mem
  obtain ⟨v,got,status,_⟩ := mem_carried mem
  rw [status]
  exact early c.txn v got

theorem upgradeStatus_marks {g : Graph} (got : g.find t = some v) : Marks t (g.upgradeStatus t cmt).carried := by
  unfold upgradeStatus
  rw [got]
  have entered : (t,{ v with status := v.status ||| cmt }) ∈ (g.insert t { v with status := v.status ||| cmt }).entries :=
    OrdMap.mem_entries.mpr (by rw [OrdMap.find_insert,if_pos rfl])
  exact ⟨_,mem_map_of_mem entered,rfl,Nat.right_le_or⟩

theorem Proposes.only {g : Graph} (proposes : g.Proposes t) : Only t g.carried := by
  intro c mem apart
  obtain ⟨v,got,status,_⟩ := mem_carried mem
  rw [status]
  exact proposes.others c.txn v got apart

theorem Proposes.carries {g : Graph} (proposes : g.Proposes t) (right : granted t = (g.find t).map Vertex.parents) :
    Carries granted g.carried := by
  intro c mem
  obtain ⟨v,got,status,parents⟩ := mem_carried mem
  rw [status,parents]
  refine ⟨proposes.small c.txn v got,?_⟩
  intro late
  by_cases own : c.txn = t
  · rw [own] at got ⊢
    rw [right,got]
    rfl
  · exact absurd late (Nat.not_le.mpr (proposes.others c.txn v got own))

end Graph

namespace Coord

def chosen (c : Coord) (t : Txn) : Option (List Txn) :=
  if c.phase = .accept ∨ c.phase = .commit then (c.graph.find t).map Vertex.parents else none

structure Ok (c : Coord) (t : Txn) : Prop where
  proposes : c.graph.Proposes t
  early : c.phase = .dispatch ∨ c.phase = .preAccept →
    c.graph.Early ∧ (∀ par, ∀ g ∈ c.nFastAcceptGraphs par, Early g) ∧ c.fastPath = false

theorem chooseGraph_early (d : Deployment) {c : Coord} (early : c.graph.Early)
    (answers : ∀ par, ∀ g ∈ c.nFastAcceptGraphs par, Early g) : (c.chooseGraph d t).Early := by
  unfold chooseGraph
  refine List.foldlRecOn (d.partitions t) _ early ?_
  intro g before par _
  refine List.foldlRecOn _ Graph.aggregate before ?_
  intro g before graph mem
  refine before.aggregate (answers par graph ?_)
  split at mem
  · exact mem_of_mem_take mem
  · exact mem

theorem attached_mem {c : Coord} {sent : List Carried} (some_sent : c.attached = some sent) : sent = c.graph.carried := by
  unfold attached at some_sent
  split at some_sent
  · cases some_sent
  · exact (Option.some.inj some_sent).symm

theorem mem_broadcast {d : Deployment} {message : Site → Message} (mem : m ∈ broadcast d t message) :
    ∃ site, m = message site := by
  obtain ⟨_,_,there⟩ := mem_flatMap.mp mem
  obtain ⟨site,_,same⟩ := mem_map.mp there
  exact ⟨site,same.symm⟩

theorem goCommit_spec {c c' : Coord} (taken : c.goCommit d t = some (c',sent)) :
    c' = { c with phase := .commit,graph := c.graph.upgradeStatus t cmt } ∧
      ∀ m ∈ sent, ∃ site, m = .commit t site c'.attached := by
  unfold goCommit at taken
  split at taken
  · cases taken
    exact ⟨rfl,fun m mem => mem_broadcast mem⟩
  · cases taken

theorem goAccept_spec {c c' : Coord} (taken : c.goAccept d t = some (c',sent)) :
    c' = { c with phase := .accept,graph := (c.chooseGraph d t).upgradeStatus t cmt } ∧
      Marks t c'.graph.carried ∧ ∀ m ∈ sent, ∃ site, m = .accept t site c'.graph.carried := by
  unfold goAccept at taken
  dsimp only at taken
  split at taken
  next whole =>
    cases taken
    unfold complete at whole
    split at whole
    · cases whole
    next got => exact ⟨rfl,Graph.upgradeStatus_marks got,fun m mem => mem_broadcast mem⟩
  · cases taken

end Coord

namespace System

def Taken (s : System) (t : Txn) : Prop := (s.coords t).fastPath = true ∨ t ∈ s.accepted.map Prod.fst

instance (s : System) (t : Txn) : Decidable (s.Taken t) := by unfold Taken; infer_instance

def granted (s : System) (t : Txn) : Option (List Txn) := if s.Taken t then (s.coords t).chosen t else none

end System

namespace Message

def Ok (s : System) : Message → Prop
  | .dispatch t _ _ => (s.coords t).phase = .dispatch
  | .dispatchAck _ graph => Early graph
  | .preAccept _ _ (some graph) => Early graph
  | .preAccept _ _ none => True
  | .preAcceptAck t _ graph => Only t graph ∧ Carries s.granted graph
  | .accept t _ graph => Only t graph ∧ Marks t graph ∧ Carries (fun u => (s.coords u).chosen u) graph
  | .acceptAck t _ => s.Taken t
  | .commit t _ (some graph) => Only t graph ∧ Carries s.granted graph
  | .commit t _ none => s.Taken t
  | .inquire _ _ _ => True
  | .inquireAck _ _ graph => Carries s.granted graph

end Message

structure Grows (s s' : System) : Prop where
  chosen : ∀ t p, (s.coords t).chosen t = some p → (s'.coords t).chosen t = some p
  taken : ∀ t, s.Taken t → s'.Taken t
  dispatching : ∀ t, (s.coords t).phase = .dispatch → (s'.coords t).phase = .dispatch ∨ ∀ m ∈ s.network, m.dispatches t = false

theorem Grows.granted (grows : Grows s s') (t : Txn) (p : List Txn) (before : s.granted t = some p) : s'.granted t = some p := by
  unfold System.granted at before ⊢
  split at before
  next taken =>
    rw [if_pos (grows.taken t taken)]
    exact grows.chosen t p before
  · cases before

theorem Message.Ok.mono {m : Message} (ok : m.Ok s) (grows : Grows s s') (mem : m ∈ s.network) : m.Ok s' := by
  cases m with
  | dispatch t site columns =>
    rcases grows.dispatching t ok with still | none_left
    · exact still
    · simpa [Message.dispatches] using none_left _ mem
  | dispatchAck t graph => exact ok
  | preAccept t site graph => cases graph <;> exact ok
  | preAcceptAck t par graph => exact ⟨ok.1,ok.2.mono grows.granted⟩
  | accept t site graph => exact ⟨ok.1,ok.2.1,ok.2.2.mono grows.chosen⟩
  | acceptAck t site => exact grows.taken t ok
  | commit t site graph =>
    cases graph with
    | none => exact grows.taken t ok
    | some graph => exact ⟨ok.1,ok.2.mono grows.granted⟩
  | inquire t site asker => trivial
  | inquireAck t asker graph => exact Carries.mono ok grows.granted

structure Inv (s : System) : Prop where
  coords : ∀ t, (s.coords t).Ok t
  backed : ∀ t, (s.coords t).phase = .commit → s.Taken t
  replicas : ∀ site, Faithful s.granted (s.replicas site).sched
  messages : ∀ m ∈ s.network, m.Ok s

theorem inv_initial (d : Deployment) : Inv (brq d).initial where
  coords := fun _ => ⟨⟨fun _ _ got => (by cases got),fun _ _ got => (by cases got)⟩,
    fun _ => ⟨fun _ _ got => (by cases got),fun _ _ mem => (by cases mem),rfl⟩⟩
  backed := fun _ committed => (by cases committed)
  replicas := fun _ => ⟨⟨fun _ _ => rfl,by simp [brq],by simp [brq],by simp [brq],by simp [brq],by simp [brq]⟩,
    fun _ => Fits.early (show (0 : Nat) < cmt by decide)⟩
  messages := fun _ mem => (by cases mem)

theorem Inv.erase (inv : Inv s) (m : Message) : Inv { s with network := s.network.erase m } where
  coords := inv.coords
  backed := inv.backed
  replicas := inv.replicas
  messages := fun m mem => (inv.messages m (mem_of_mem_erase mem)).mono ⟨fun _ _ => id,fun _ => id,fun _ => .inl⟩
    (mem_of_mem_erase mem)

theorem Inv.replicaDoes (inv : Inv s) (site : Site) {r : Replica} (faithful : Faithful s.granted r.sched)
    (sent : ∀ m ∈ ms, m.Ok s) : Inv (s.replicaDoes site (r,ms)) where
  coords := inv.coords
  backed := inv.backed
  replicas := by
    intro other
    change Faithful s.granted (Function.update s.replicas site r other).sched
    by_cases same : other = site
    · rw [same,Function.update_self]
      exact faithful
    · rw [Function.update_of_ne same]
      exact inv.replicas other
  messages := by
    intro m mem
    have ok : m.Ok s := (mem_append.mp mem).elim (inv.messages m) (sent m)
    cases m with
    | preAccept t spot graph | commit t spot graph => cases graph <;> exact ok
    | _ => exact ok

structure Advances (s : System) (t : Txn) (c' : Coord) : Prop where
  ok : c'.Ok t
  chosen : ∀ p, (s.coords t).chosen t = some p → c'.chosen t = some p
  fast : (s.coords t).fastPath = true → c'.fastPath = true
  backed : c'.phase = .commit → c'.fastPath = true ∨ t ∈ s.accepted.map Prod.fst
  dispatching : (s.coords t).phase = .dispatch → c'.phase = .dispatch ∨ ∀ m ∈ s.network, m.dispatches t = false

theorem coordDoes_own (s : System) (t : Txn) (e : Coord × List Message) : (s.coordDoes t e).coords t = e.1 :=
  Function.update_self _ _ _

theorem coordDoes_other (s : System) (e : Coord × List Message) (apart : u ≠ t) : (s.coordDoes t e).coords u = s.coords u :=
  Function.update_of_ne apart _ _

theorem Advances.grows (advances : Advances s t c') (ms : List Message) : Grows s (s.coordDoes t (c',ms)) where
  chosen := by
    intro u p before
    by_cases same : u = t
    · subst same
      rw [coordDoes_own]
      exact advances.chosen p before
    · rw [coordDoes_other s _ same]
      exact before
  taken := by
    intro u before
    unfold System.Taken at before ⊢
    by_cases same : u = t
    · subst same
      rw [coordDoes_own]
      exact before.imp_left advances.fast
    · rw [coordDoes_other s _ same]
      exact before
  dispatching := by
    intro u before
    by_cases same : u = t
    · subst same
      rw [coordDoes_own]
      exact advances.dispatching before
    · rw [coordDoes_other s _ same]
      exact .inl before

theorem Inv.coordDoes (inv : Inv s) (advances : Advances s t c') (sent : ∀ m ∈ ms, m.Ok (s.coordDoes t (c',ms))) :
    Inv (s.coordDoes t (c',ms)) where
  coords := by
    intro u
    by_cases same : u = t
    · subst same
      rw [coordDoes_own]
      exact advances.ok
    · rw [coordDoes_other s _ same]
      exact inv.coords u
  backed := by
    intro u committed
    by_cases same : u = t
    · subst same
      unfold System.Taken
      rw [coordDoes_own] at committed ⊢
      exact advances.backed committed
    · rw [coordDoes_other s _ same] at committed
      exact (advances.grows ms).taken u (inv.backed u committed)
  replicas := fun site => (inv.replicas site).mono (advances.grows ms).granted
  messages := by
    exact forall_mem_append.mpr ⟨fun m before => (inv.messages m before).mono (advances.grows ms) before,sent⟩

theorem Advances.gathers (inv : Inv s) (phase : c'.phase = (s.coords t).phase) (graph : c'.graph = (s.coords t).graph)
    (fast : c'.fastPath = (s.coords t).fastPath)
    (answers : (s.coords t).phase = .dispatch ∨ (s.coords t).phase = .preAccept → ∀ par, ∀ g ∈ c'.nFastAcceptGraphs par, Early g) :
    Advances s t c' where
  ok := by
    refine ⟨by rw [graph]; exact (inv.coords t).proposes,?_⟩
    rw [phase,graph,fast]
    intro early
    obtain ⟨before,_,slow⟩ := (inv.coords t).early early
    exact ⟨before,answers early,slow⟩
  chosen := by
    unfold Coord.chosen
    rw [phase,graph]
    exact fun _ => id
  fast := by
    rw [fast]
    exact id
  backed := by
    rw [phase,fast]
    exact inv.backed t
  dispatching := by
    rw [phase]
    exact .inl

theorem chosen_early {c : Coord} (early : c.phase = .dispatch ∨ c.phase = .preAccept) : c.chosen t = none := by
  unfold Coord.chosen
  rcases early with phase | phase <;> rw [phase] <;> simp

theorem granted_early {s : System} (early : (s.coords t).phase = .dispatch ∨ (s.coords t).phase = .preAccept) :
    s.granted t = none := by
  unfold System.granted
  rw [chosen_early early]
  split <;> rfl

theorem granted_taken {s : System} (taken : s.Taken t) : s.granted t = (s.coords t).chosen t := by
  unfold System.granted
  rw [if_pos taken]

theorem Carries.early_of_none (only : Only t graph) (carries : Carries granted graph) (none_yet : granted t = none) : Early graph := by
  intro c mem
  by_cases own : c.txn = t
  · by_contra late
    have chosen := (carries c mem).right (Nat.not_lt.mp late)
    rw [own,none_yet] at chosen
    cases chosen
  · exact only c mem own

theorem Advances.proposes (late : c'.phase = .accept ∨ c'.phase = .commit) (proposes : c'.graph.Proposes t)
    (kept : ∀ p, (s.coords t).chosen t = some p → (c'.graph.find t).map Vertex.parents = some p)
    (fast : (s.coords t).fastPath = true → c'.fastPath = true)
    (backed : c'.phase = .commit → c'.fastPath = true ∨ t ∈ s.accepted.map Prod.fst)
    (begun : (s.coords t).phase ≠ .dispatch) : Advances s t c' where
  ok := by
    refine ⟨proposes,fun early => ?_⟩
    rcases late with phase | phase <;> rw [phase] at early <;> simp at early
  chosen := by
    intro p before
    unfold Coord.chosen
    rw [if_pos late]
    exact kept p before
  fast := fast
  backed := backed
  dispatching := fun phase => absurd phase begun

section
variable (inv : Inv s)
include inv

theorem Inv.commits (advances : Advances s t c') (committed : c'.phase = .commit)
    (sent : ∀ m ∈ ms, ∃ site, m = .commit t site c'.attached) : Inv (s.coordDoes t (c',ms)) := by
  have taken : (s.coordDoes t (c',ms)).Taken t := by
    unfold System.Taken
    rw [coordDoes_own]
    exact advances.backed committed
  refine inv.coordDoes advances fun m mem => ?_
  obtain ⟨site,rfl⟩ := sent m mem
  cases graph : c'.attached with
  | none => exact taken
  | some graph =>
    rw [Coord.attached_mem graph]
    refine ⟨advances.ok.proposes.only,advances.ok.proposes.carries ?_⟩
    rw [granted_taken taken,coordDoes_own,Coord.chosen,if_pos (.inr committed)]

theorem Inv.accepts (advances : Advances s t c') (phase : c'.phase = .accept) (marks : Marks t c'.graph.carried)
    (sent : ∀ m ∈ ms, ∃ site, m = .accept t site c'.graph.carried) : Inv (s.coordDoes t (c',ms)) := by
  refine inv.coordDoes advances fun m mem => ?_
  obtain ⟨site,rfl⟩ := sent m mem
  refine ⟨advances.ok.proposes.only,marks,advances.ok.proposes.carries ?_⟩
  rw [coordDoes_own,Coord.chosen,if_pos (.inl phase)]

theorem Inv.preAcceptAck (ok : (Message.preAcceptAck t par graph).Ok s)
    (done : (s.coords t).preAcceptAck d t par graph = some e) : Inv (s.coordDoes t e) := by
  unfold Coord.preAcceptAck at done
  split at done
  next phase =>
    have early : Early graph := Carries.early_of_none ok.1 ok.2 (granted_early (.inr phase))
    obtain ⟨before,old,slow⟩ := (inv.coords t).early (.inr phase)
    have begun : (s.coords t).phase ≠ .dispatch := by rw [phase]; decide
    have answers : ∀ p, ∀ g ∈ Function.update (s.coords t).nFastAcceptGraphs par ((s.coords t).nFastAcceptGraphs par ++ [graph]) p,
        Early g := by
      intro p g mem
      by_cases same : p = par
      · rw [same,Function.update_self] at mem
        rcases mem_append.mp mem with was | new
        · exact old par g was
        · rw [mem_singleton.mp new]
          exact early
      · rw [Function.update_of_ne same] at mem
        exact old p g mem
    have kept : ∀ (g : Graph) p, (s.coords t).chosen t = some p → (g.find t).map Vertex.parents = some p := by
      intro g p was
      rw [chosen_early (.inr phase)] at was
      cases was
    dsimp only at done
    split at done
    · split at done
      · obtain ⟨same,sent⟩ := Coord.goCommit_spec done
        refine inv.commits (Advances.proposes ?_ ?_ (kept _) ?_ ?_ begun) (by rw [same]) sent
        · rw [same]
          exact .inr rfl
        · rw [same]
          refine .upgrade (Graph.Early.proposes ?_ t)
          exact Coord.chooseGraph_early d before answers
        · intro _
          rw [same]
        · intro _
          rw [same]
          exact .inl rfl
      · cases done
        exact inv.coordDoes (Advances.gathers inv rfl rfl rfl fun _ => answers) fun _ mem => (by cases mem)
    split at done
    · obtain ⟨same,marks,sent⟩ := Coord.goAccept_spec done
      refine inv.accepts (Advances.proposes ?_ ?_ (kept _) ?_ ?_ begun) (by rw [same]) marks sent
      · rw [same]
        exact .inl rfl
      · rw [same]
        refine .upgrade (Graph.Early.proposes ?_ t)
        exact Coord.chooseGraph_early d before answers
      · rw [slow]
        exact fun fast => (by cases fast)
      · rw [same]
        exact fun committed => (by cases committed)
    · cases done
      exact inv.coordDoes (Advances.gathers inv rfl rfl rfl fun _ => answers) fun _ mem => (by cases mem)
  · cases done
    exact inv.coordDoes (Advances.gathers inv rfl rfl rfl fun early => ((inv.coords t).early early).2.1)
      fun _ mem => (by cases mem)

theorem Inv.acceptAck (taken : s.Taken t) (done : (s.coords t).acceptAck d t par = some e) :
    Inv (s.coordDoes t e) := by
  have gathers : ∀ n, Advances s t { s.coords t with nAcceptOks := n } := fun n =>
    Advances.gathers inv rfl rfl rfl fun early => ((inv.coords t).early early).2.1
  unfold Coord.acceptAck at done
  split at done
  next phase =>
    dsimp only at done
    split at done
    · obtain ⟨same,sent⟩ := Coord.goCommit_spec done
      refine inv.commits (Advances.proposes ?_ ?_ ?_ ?_ ?_ (by rw [phase]; decide)) (by rw [same]) sent
      · rw [same]
        exact .inr rfl
      · rw [same]
        exact (inv.coords t).proposes.upgrade
      · intro p before
        rw [Coord.chosen,if_pos (.inl phase)] at before
        rw [same]
        exact (Graph.upgradeStatus_parents _ t _).trans before
      · rw [same]
        exact id
      · intro _
        rw [same]
        exact taken
    · cases done
      exact inv.coordDoes (gathers _) fun _ mem => (by cases mem)
  · cases done
    exact inv.coordDoes (gathers (s.coords t).nAcceptOks) fun _ mem => (by cases mem)

theorem Inv.dispatchAck (low : Early graph) (done : (s.coords t).dispatchAck graph = some e) :
    Inv (s.coordDoes t e) := by
  obtain ⟨phase,rfl⟩ := of_guard done
  obtain ⟨before,answers,slow⟩ := (inv.coords t).early (.inl phase)
  have early := before.aggregate low
  refine inv.coordDoes ⟨⟨early.proposes t,fun _ => ⟨early,answers,slow⟩⟩,?_,id,?_,.inl⟩ fun _ mem => (by cases mem)
  · intro p was
    rw [chosen_early (.inl phase)] at was
    cases was
  · exact inv.backed t

theorem Inv.goPreAccept (phase : (s.coords t).phase = .dispatch) (none_left : ∀ m ∈ s.network, m.dispatches t = false)
    (done : (s.coords t).goPreAccept d t = some e) : Inv (s.coordDoes t e) := by
  obtain ⟨_,rfl⟩ := of_guard done
  obtain ⟨before,answers,slow⟩ := (inv.coords t).early (.inl phase)
  refine inv.coordDoes ⟨⟨before.proposes t,fun _ => ⟨before,answers,slow⟩⟩,?_,id,?_,fun _ => .inr none_left⟩ ?_
  · intro p was
    rw [chosen_early (.inl phase)] at was
    cases was
  · exact fun committed => (by cases committed)
  intro m mem
  obtain ⟨_,rfl⟩ := Coord.mem_broadcast mem
  cases sent : (s.coords t).attached with
  | none => trivial
  | some graph =>
    rw [Coord.attached_mem sent]
    exact before.carried

end

structure Serves (s : System) (e : Replica × List Message) : Prop where
  faithful : Faithful s.granted e.1.sched
  sent : ∀ m ∈ e.2, m.Ok s

theorem Inv.serves (inv : Inv s) (site : Site) (serves : Serves s e) : Inv (s.replicaDoes site e) :=
  inv.replicaDoes site serves.faithful serves.sent

section
variable {s : System} {r : Replica} {me : Site}

theorem Faithful.hears {q : Sched} (f : Faithful granted q) (low : Early graph) : Faithful granted ((q.aggregate graph).triggerCheck graph) :=
  (f.aggregate low.carries fun c mem late => absurd late (Nat.not_le.mpr (low c mem))).waitlist _

theorem answerable_created {q : Sched} (plain : Plain q) (ready : Answerable q t) : Answerable (q.getOrCreateDTxn own t) t := by
  obtain ⟨status,parents,scc,_⟩ := getOrCreateDTxn_fields q plain own t t
  unfold Answerable Vertex.isDecided at ready ⊢
  rw [status,parents,scc]
  exact ready

theorem inquireAboutIfNeeded_parts (done : r.inquireAboutIfNeeded me v site = some (r',ms)) :
    r'.sched = r.sched ∧ r'.order = r.order ∧ r'.inquirers = r.inquirers ∧ ∀ m ∈ ms, m = .inquire v site me := by
  unfold Replica.inquireAboutIfNeeded at done
  dsimp only at done
  split at done
  · split at done
    · cases done
      exact ⟨rfl,rfl,rfl,fun m mem => mem_singleton.mp mem⟩
    · cases done
  · cases done
    exact ⟨rfl,rfl,rfl,fun m mem => (by cases mem)⟩

section
variable (f : Faithful s.granted r.sched)
include f

theorem Serves.onDispatch (phase : (s.coords t).phase = .dispatch)
    (done : r.onDispatch me t columns = some e) : Serves s e := by
  have none_yet : s.granted t = none := granted_early (.inl phase)
  have after := f.onDispatch none_yet me.par (traceDep r.sched t columns r.last).1
  have early := after.status_none none_yet
  unfold Replica.onDispatch at done
  dsimp only at done
  split at done
  · cases done
    refine ⟨after,fun m mem => ?_⟩
    rw [mem_singleton.mp mem]
    intro c only
    rw [mem_singleton.mp only]
    exact (by decide : (0 : Nat) < cmt)
  obtain ⟨_,selected,rfl⟩ := map_eq_some_iff.mp done
  refine ⟨after,fun m mem => ?_⟩
  rw [mem_singleton.mp mem]
  intro c there
  rcases selectGraphCmtUkn_parts selected c there with zero | ⟨_,_,less⟩
  · rw [zero]
    decide
  · exact Nat.lt_of_le_of_lt less early

theorem Serves.onPreAccept (low : Early graph) (t : Txn) : Serves s (r.onPreAccept me t graph) := by
  refine ⟨(f.hears low).setInvolved me.par t,fun m mem => ?_⟩
  rw [mem_singleton.mp mem]
  trivial

theorem Serves.onPreAcceptWoGraph (done : r.onPreAcceptWoGraph me t columns = some e) :
    Serves s e := by
  unfold Replica.onPreAcceptWoGraph at done
  dsimp only at done
  split at done
  · cases done
  rename_i sched accepted
  have after := f.onPreAccept accepted
  obtain ⟨_,selected,rfl⟩ := map_eq_some_iff.mp done
  refine ⟨after,fun m mem => ?_⟩
  rw [mem_singleton.mp mem]
  refine ⟨?_,after.selected selected⟩
  intro c there apart
  rcases selectGraphCmtUkn_parts selected c there with zero | ⟨own,_⟩
  · rw [zero]
    decide
  · exact absurd own apart

theorem Serves.onAccept (taken : s.Taken t) (only : Only t graph)
    (carries : Carries (fun u => (s.coords u).chosen u) graph) (done : r.onAccept me t graph = some e) : Serves s e := by
  have right : Carries s.granted graph := by
    intro c mem
    by_cases own : c.txn = t
    · refine ⟨(carries c mem).small,fun late => ?_⟩
      have chosen := (carries c mem).right late
      rw [own] at chosen ⊢
      rw [granted_taken taken]
      exact chosen
    · exact Fits.early (only c mem own)
  unfold Replica.onAccept at done
  obtain ⟨_,accepted,rfl⟩ := map_eq_some_iff.mp done
  refine ⟨f.onAccept right only accepted,fun m mem => ?_⟩
  rw [mem_singleton.mp mem]
  exact taken

theorem Serves.onCommit (only : Only t graph) (carries : Carries s.granted graph) :
    Serves s (r.onCommit me t graph,[]) := by
  have created := f.getOrCreateDTxn me.par t
  have known := (getOrCreateDTxn_mild f.sound.plain me.par t).2
  refine ⟨?_,fun m mem => (by cases mem)⟩
  unfold Replica.onCommit
  dsimp only
  split
  · exact created
  refine (created.aggregate carries fun c mem late => ?_).waitlist _
  by_cases own : c.txn = t
  · rw [own]
    exact known
  · exact absurd late (Nat.not_le.mpr (only c mem own))

theorem Serves.onCommitWoGraph (taken : s.Taken t) (alone : (r.sched.info t).parents = [])
    (right : (s.coords t).chosen t = some []) (done : r.onCommitWoGraph me t = some r') : Serves s (r',[]) := by
  have created := f.getOrCreateDTxn me.par t
  have known := (getOrCreateDTxn_mild f.sound.plain me.par t).2
  obtain ⟨_,parents,_⟩ := getOrCreateDTxn_fields r.sched f.sound.plain me.par t t
  refine ⟨?_,fun m mem => (by cases mem)⟩
  unfold Replica.onCommitWoGraph at done
  dsimp only at done
  split at done
  · cases done
    exact created
  obtain ⟨_,rfl⟩ := of_guard done
  exact (created.quickCommit known (parents.trans alone) ((granted_taken taken).trans right)).waitlist _

theorem Serves.onInquire (ready : Answerable r.sched t)
    (done : r.onInquire me t asker = some e) : Serves s e := by
  have created := f.getOrCreateDTxn me.par t
  unfold Replica.onInquire at done
  dsimp only at done
  split at done
  · split at done
    · obtain ⟨⟨_,sched⟩,inquired,rfl⟩ := map_eq_some_iff.mp done
      obtain ⟨after,_,carries⟩ := created.inquired (answerable_created f.sound.plain ready) inquired
      refine ⟨after,fun m mem => ?_⟩
      rw [mem_singleton.mp mem]
      exact carries
    · cases done
      exact ⟨created.waitlist _,fun m mem => (by cases mem)⟩
  · cases done

theorem Serves.visit (ready : Answerable r.sched v)
    (done : r.visit me v nearest = some e) : Serves s e := by
  obtain ⟨⟨_,asked⟩,first,after⟩ := bind_eq_some_iff.mp done
  obtain ⟨sched,visited,last⟩ := bind_eq_some_iff.mp after
  obtain ⟨same,_,_,questions⟩ := inquireAboutIfNeeded_parts first
  have asks : ∀ m ∈ asked, m.Ok s := fun m mem => by rw [questions m mem]; trivial
  rw [same] at visited
  obtain ⟨f1,leaves⟩ := f.visit visited
  dsimp only at last
  split at last
  · obtain ⟨⟨_,_⟩,answered,done⟩ := bind_eq_some_iff.mp last
    cases done
    obtain ⟨f2,told⟩ := f1.answered (leaves.answerable f f1 ready) answered
    refine ⟨f2,fun m mem => ?_⟩
    rcases mem_append.mp mem with asks' | answer
    · exact asks m asks'
    · obtain ⟨_,_,rfl,carries⟩ := told m answer
      exact carries
  · cases last
    exact ⟨f1,asks⟩

end

end

-- A step that does not take parents over wrongly: a commit without a graph finds no
-- parents, an inquiry is answered from a known component, and an answer tells only about
-- known transactions that they are committing.
def Careful (s : System) : Event → Prop
  | .deliver (.commit t site none) => ((s.replicas site).sched.info t).parents = [] ∧ (s.coords t).chosen t = some []
  | .deliver (.inquire t site _) => Answerable (s.replicas site).sched t
  | .deliver (.inquireAck _ asker graph) => ∀ c ∈ graph, cmt ≤ c.status → c.txn ∈ (s.replicas asker).sched.vertices
  | .visit site v _ => Answerable (s.replicas site).sched v
  | _ => True

theorem Inv.accepted (inv : Inv s) (t : Txn) (site : Site) :
    Inv { s with accepted := (t,site) :: s.accepted } := by
  have grows : Grows s { s with accepted := (t,site) :: s.accepted } :=
    ⟨fun _ _ => id,fun u before => before.imp_right (.tail _),fun _ => .inl⟩
  exact ⟨inv.coords,fun u committed => grows.taken u (inv.backed u committed),
    fun site => (inv.replicas site).mono grows.granted,fun m mem => (inv.messages m mem).mono grows mem⟩

theorem Inv.receive (inv : Inv s) (ok : m.Ok s) (careful : Careful s (.deliver m)) (done : s.receive d m = some s') : Inv s' := by
  cases m with
  | dispatch t site columns =>
    obtain ⟨e,does,rfl⟩ := map_eq_some_iff.mp done
    exact inv.serves site (Serves.onDispatch (inv.replicas site) ok does)
  | dispatchAck t graph =>
    obtain ⟨e,does,rfl⟩ := map_eq_some_iff.mp done
    exact inv.dispatchAck ok does
  | preAccept t site graph =>
    cases graph with
    | some graph =>
      cases done
      exact inv.serves site (Serves.onPreAccept (inv.replicas site) ok t)
    | none =>
      obtain ⟨e,does,rfl⟩ := map_eq_some_iff.mp done
      exact inv.serves site (Serves.onPreAcceptWoGraph (inv.replicas site) does)
  | preAcceptAck t par graph =>
    obtain ⟨e,does,rfl⟩ := map_eq_some_iff.mp done
    exact inv.preAcceptAck ok does
  | accept t site graph =>
    obtain ⟨e,does,rfl⟩ := map_eq_some_iff.mp done
    have inv' := inv.accepted t site
    refine inv'.serves site (Serves.onAccept (inv'.replicas site) (.inr mem_cons_self) ok.1 ok.2.2 does)
  | acceptAck t site =>
    obtain ⟨e,does,rfl⟩ := map_eq_some_iff.mp done
    exact inv.acceptAck ok does
  | commit t site graph =>
    cases graph with
    | some graph =>
      cases done
      exact inv.serves site (Serves.onCommit (inv.replicas site) ok.1 ok.2)
    | none =>
      obtain ⟨_,does,rfl⟩ := map_eq_some_iff.mp done
      exact inv.serves site (Serves.onCommitWoGraph (inv.replicas site) ok careful.1 careful.2 does)
  | inquire t site asker =>
    obtain ⟨e,does,rfl⟩ := map_eq_some_iff.mp done
    exact inv.serves site (Serves.onInquire (inv.replicas site) careful does)
  | inquireAck t asker graph =>
    cases done
    refine inv.serves asker ⟨?_,fun m mem => (by cases mem)⟩
    exact ((inv.replicas asker).aggregate ok careful).waitlist _

theorem Inv.step (inv : Inv s) (careful : Careful s e) (done : s.step d e = some s') : Inv s' := by
  cases e with
  | dispatch t site columns =>
    obtain ⟨allowed,rfl⟩ := of_guard done
    refine inv.coordDoes (Advances.gathers inv rfl rfl rfl fun early => ((inv.coords t).early early).2.1) fun m mem => ?_
    rw [mem_singleton.mp mem]
    change ((s.coordDoes t _).coords t).phase = .dispatch
    rw [coordDoes_own]
    exact allowed.1
  | preAccept t =>
    simp only [System.step] at done
    split at done
    next allowed =>
      obtain ⟨e,does,rfl⟩ := map_eq_some_iff.mp done
      exact inv.goPreAccept allowed.1 allowed.2.2 does
    · cases done
  | deliver m =>
    simp only [System.step] at done
    split at done
    next present =>
      have ok : m.Ok { s with network := s.network.erase m } :=
        (inv.messages m present).mono ⟨fun _ _ => id,fun _ => id,fun _ => .inl⟩ present
      refine (inv.erase m).receive ok ?_ done
      cases m with
      | commit t site graph => cases graph <;> exact careful
      | _ => exact careful
    · cases done
  | visit site v nearest =>
    obtain ⟨e,does,rfl⟩ := map_eq_some_iff.mp done
    exact inv.serves site (Serves.visit (inv.replicas site) careful does)

theorem inv_of_reached (reached : (brq d).Reached Careful s) : Inv s :=
  reached.invariant Inv (inv_initial d) fun _ _ _ _ inv careful done => inv.step careful done

end DbExp.Janus
