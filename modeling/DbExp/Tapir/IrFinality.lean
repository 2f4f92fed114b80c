import DbExp.Tapir.IrMerge

namespace DbExp.Tapir.Ir
open List

def AppReplica.MergesAll (app : AppReplica σ) : Prop :=
  ∀ s d u majority op, ((app.merge s d u majority).2.find op).isSome ↔ (d.find op).isSome ∨ (u.find op).isSome

theorem AppReplica.MergesAll.given {app : AppReplica σ} (lawful : app.MergesAll) : app.MergesGiven :=
  fun s d u majority op answered => (lawful s d u majority op).mp answered

section
variable (r : Replica n σ) (msgs : OrdMap (Fin n) (DoViewChangeMessage n))

structure PreservesFinality (merged : Record) : Prop where
  occurs : ∀ op, (merged.find op).isSome ↔ ∃ source ∈ latestRecords r msgs, (source.find op).isSome
  final : ∀ op, ∀ source ∈ latestRecords r msgs, ∀ e, source.find op = some e → e.state = .finalized →
    ∃ x, merged.find op = some x ∧ x.state = .finalized ∧ x.result = e.result

end

-- The first entry that settles the opid is final, with the result of every final one,
-- and no group of tentative entries is left over from before it.
def FinalFirst (es : List RecordEntry) : Prop :=
  ∀ e ∈ es, e.state = .finalized → ∃ d ∈ es.find? (fun x => x.Settles), d.state = .finalized ∧ d.result = e.result ∧
    (d ∈ es.head? ∨ FinalConsensus es)

section
variable {r : Replica n σ} {msgs : OrdMap (Fin n) (DoViewChangeMessage n)}

theorem entriesMet_nonempty :
    entriesMet r msgs op ≠ [] ↔ ∃ source ∈ latestRecords r msgs, (source.find op).isSome := by
  simp only [ne_eq,eq_nil_iff_forall_not_mem,mem_entriesMet,Option.isSome_iff_exists]
  push Not
  exact exists_comm.trans (exists_congr fun source => by simp)

end

theorem splitEntries_given (grouped : (byOpid.find op).isSome) :
    ((splitEntries f byOpid).d.find op).isSome ∨ ((splitEntries f byOpid).u.find op).isSome := by
  have parts := splitEntries_at (f := f) byOpid op
  obtain ⟨es,got⟩ := Option.isSome_iff_exists.mp grouped
  rw [got,Option.elim_some] at parts
  cases majority : majorityResult f es with
  | none =>
    rw [majority] at parts
    obtain ⟨_,here,_⟩ := by simpa only [Option.elim_none,Prod.mk.injEq] using parts
    exact .inr (by rw [here]; rfl)
  | some result =>
    rw [majority] at parts
    obtain ⟨here,_⟩ := by simpa only [Option.elim_some,Prod.mk.injEq] using parts
    exact .inl (by rw [here]; rfl)

theorem foldl_add_last {entries : List RecordEntry} (r : Record) (present : ∃ e ∈ entries, e.opid = op) :
    ∃ e ∈ entries, e.opid = op ∧ (entries.foldl Record.add r).find op = some e := by
  induction entries using List.reverseRecOn with
  | nil => simp at present
  | append_singleton entries last ih =>
    rw [foldl_append,foldl_cons,foldl_nil,Record.find_add]
    by_cases here : last.opid = op
    · exact ⟨last,by simp,here,if_pos here⟩
    · rw [if_neg here]
      obtain ⟨e,mem,key,got⟩ := ih (by simpa [here,or_and_right,exists_or] using present)
      exact ⟨e,mem_append_left _ mem,key,got⟩

theorem mergedEntries_covers {results : List (Opid × String)} (merged : mergedEntries view byOpid results = some entries)
    (listed : p ∈ results) : ∃ e ∈ entries, e.opid = p.1 := by
  obtain ⟨e,there,chosen⟩ := mem_map.mp (mapM_some merged ▸ mem_map_of_mem listed)
  refine ⟨e,there,?_⟩
  split at chosen <;> cases chosen
  rfl

theorem irMergeRecords_find {app : AppReplica σ} (lawful : app.MergesAll) (r : Replica config.n σ)
    (msgs : OrdMap (Fin config.n) (DoViewChangeMessage config.n)) : ∃ merged,
    irMergeRecords ⟨config,app⟩ r msgs = some ((mergeCall ⟨config,app⟩ r msgs).1,merged) ∧
    (∀ op, (groupEntries (latestRecords r msgs)).byOpid.find op = none →
      merged.find op = (groupEntries (latestRecords r msgs)).R.find op) ∧
    ∀ op, ((groupEntries (latestRecords r msgs)).byOpid.find op).isSome →
      ∃ e, merged.find op = some e ∧ e.state = .finalized ∧ (mergeCall ⟨config,app⟩ r msgs).2.find op = some e.result := by
  obtain ⟨_,ran,merged⟩ := irMergeRecords_runs ⟨config,app⟩ lawful.given r msgs
  refine ⟨_,ran,?_,?_⟩
  · intro op absent
    refine foldl_add_apart ?_ _
    rintro x mem rfl
    obtain ⟨_,_,_,_,got,_⟩ := mergedEntries_mem merged mem
    rw [absent] at got
    cases got
  intro op grouped
  have answered : ((mergeCall ⟨config,app⟩ r msgs).2.find op).isSome := (lawful _ _ _ _ _).mpr (splitEntries_given grouped)
  obtain ⟨result,got⟩ := Option.isSome_iff_exists.mp answered
  obtain ⟨e,mem,key,here⟩ := foldl_add_last (groupEntries (latestRecords r msgs)).R
    (mergedEntries_covers merged (OrdMap.mem_entries.mpr got))
  obtain ⟨given,x,_,listed,_,form⟩ := mergedEntries_mem merged mem
  have own : given = e.result := by rw [form]
  refine ⟨e,here,by rw [form],?_⟩
  rw [← own,← show e.opid = op from key]
  exact OrdMap.mem_entries.mp listed

theorem Grouping.some_of_group (g : Grouping es got) (group : got.2 = some rest) : es ≠ [] := by
  rintro rfl
  cases rest with
  | nil => exact g.nonempty group
  | cons e rest => cases g.members group e mem_cons_self

theorem Grouping.isSome_of_ungrouped (g : Grouping es got) (group : got.2 = none) : got.1.isSome ↔ es ≠ [] := by
  cases g with
  | ongoing unsettled => simpa using group
  | settled d pre post split unsettled settles dropped => simp [split]
  | lingering d pre post split unsettled settles filled kept => cases group

theorem Grouping.ungrouped (g : Grouping es (some d,none)) : d ∈ es.head? ∨ FinalConsensus es := by
  cases g with
  | settled _ pre post split unsettled settles dropped =>
    refine dropped.imp_left fun empty => ?_
    rw [split,empty]
    rfl

theorem FinalFirst.ungrouped (ordered : FinalFirst es) (g : Grouping es got) (mem : e ∈ es) (done : e.state = .finalized) :
    ∃ d, got = (some d,none) ∧ d.state = .finalized ∧ d.result = e.result := by
  obtain ⟨d,first,final,same,clear⟩ := ordered e mem done
  have chosen := g.first.trans first
  cases g with
  | ongoing unsettled => cases chosen
  | settled x pre post split unsettled settles dropped =>
    cases chosen
    exact ⟨d,rfl,final,same⟩
  | lingering x pre post split unsettled settles filled kept =>
    cases chosen
    rcases clear with head | consensus
    · cases pre with
      | nil => exact (filled rfl).elim
      | cons y pre =>
        rw [split] at head
        cases head
        exact (unsettled d mem_cons_self settles).elim
    · exact (kept consensus).elim

def mergesTo (σ : Type) (result : String) : AppReplica σ where
  execInconsistentUpcall := fun s _ => s
  execConsensusUpcall := fun s _ => (s,"")
  unloggedUpcall := fun s _ => (s,"")
  sync := fun s _ => s
  merge := fun s d u _ => (s,(d.entries ++ u.entries).foldl (fun results p => results.insert p.1 result) .empty)

theorem find_answers (result : String) (given : List (Opid × List RecordEntry)) (op : Opid) :
    (given.foldl (fun results p => results.insert p.1 result) (.empty : OrdMap Opid String)).find op =
      if op ∈ given.map Prod.fst then some result else none := by
  induction given using List.reverseRecOn with
  | nil => simp
  | append_singleton given last ih =>
    rw [foldl_append,foldl_cons,foldl_nil,OrdMap.find_insert,ih]
    simp only [map_append,map_cons,map_nil,mem_append,mem_singleton]
    by_cases here : last.1 = op
    · rw [if_pos here,if_pos (.inr here.symm)]
    · simp only [here,Ne.symm here,or_false,if_false]

theorem mergesTo_mergesAll (σ : Type) (result : String) : (mergesTo σ result).MergesAll := by
  intro s d u majority op
  have listed (m : OrdMap Opid (List RecordEntry)) : op ∈ m.entries.map Prod.fst ↔ (m.find op).isSome := by
    simp [Option.isSome_iff_exists,OrdMap.mem_entries]
  simp only [mergesTo,find_answers,map_append,mem_append,listed]
  split
  next given =>
    simpa using given
  next missing =>
    simpa using missing

theorem mergesTo_answers (got : ((mergesTo σ result).merge s d u majority).2.find op = some other) : other = result := by
  simp only [mergesTo,find_answers] at got
  split at got
  · cases got
    rfl
  · cases got

-- Finality survives for every lawful Merge exactly when, for every opid, the entries
-- met first are the final ones.
theorem finality_preserved_iff_final_first (config : Configuration) (r : Replica config.n σ)
    (msgs : OrdMap (Fin config.n) (DoViewChangeMessage config.n)) :
    (∀ app : AppReplica σ, app.MergesAll → ∃ after merged, irMergeRecords ⟨config,app⟩ r msgs = some (after,merged) ∧
      PreservesFinality r msgs merged) ↔ ∀ op, FinalFirst (entriesMet r msgs op) := by
  constructor
  · intro preserves op e member done
    obtain ⟨source,listed,here⟩ := mem_entriesMet.mp member
    -- Merge answers with something else than the final result.
    obtain ⟨other,apart⟩ : ∃ other, other ≠ e.result := by
      by_cases empty : e.result = ""
      · exact ⟨"x",by rw [empty]; decide⟩
      · exact ⟨"",fun same => empty same.symm⟩
    obtain ⟨after,merged,ran,kept⟩ := preserves _ (mergesTo_mergesAll σ other)
    obtain ⟨_,same_run,settled,grouped⟩ := irMergeRecords_find (mergesTo_mergesAll σ other) r msgs
    rw [ran] at same_run
    cases same_run
    obtain ⟨x,found,final,same⟩ := kept.final op source listed e here done
    have grouping := entriesMet_grouping r msgs op
    cases group : (groupEntries (latestRecords r msgs)).byOpid.find op with
    | some es =>
      obtain ⟨_,answer,_,given⟩ := grouped op (by rw [group]; rfl)
      rw [found] at answer
      cases answer
      exact (apart ((mergesTo_answers given).symm.trans same)).elim
    | none =>
      have inR := (settled op group).symm.trans found
      have shape : (groupEntries (latestRecords r msgs)).at op = (some x,none) := Prod.ext inR group
      rw [shape] at grouping
      exact ⟨x,grouping.first.symm,final,same,grouping.ungrouped⟩
  intro ordered app lawful
  obtain ⟨merged,ran,settled,grouped⟩ := irMergeRecords_find lawful r msgs
  refine ⟨_,merged,ran,?_,?_⟩
  · intro op
    rw [← entriesMet_nonempty]
    have grouping := entriesMet_grouping r msgs op
    cases group : (groupEntries (latestRecords r msgs)).byOpid.find op with
    | some es =>
      obtain ⟨e,found,_⟩ := grouped op (by rw [group]; rfl)
      have kept := grouping.some_of_group group
      simp [found,kept]
    | none =>
      rw [settled op group]
      exact grouping.isSome_of_ungrouped group
  intro op source listed e here done
  obtain ⟨d,shape,final,same⟩ := (ordered op).ungrouped (entriesMet_grouping r msgs op) (mem_entriesMet.mpr ⟨source,listed,here⟩) done
  obtain ⟨inR,group⟩ := Prod.mk.inj shape
  exact ⟨d,(settled op group).trans inR,final,same⟩

def unlocking (state : RecordEntryState) : Record :=
  Record.empty.add ⟨0,⟨7,1⟩,state,.inconsistent,⟨"unlock",7,1⟩,""⟩

-- Replica 1 of three leads view 1; it has an inconsistent operation finalized, and the
-- record of replica 0 has it in the given state.
def finalizedAtLeader : Replica 3 Unit :=
  {Replica.new ⟨⟨3,1,three_replicas⟩,mergesTo Unit ""⟩ () with status := .viewChange, view := 1, record := unlocking .finalized}

def fromReplicaZero (state : RecordEntryState) : OrdMap (Fin 3) (DoViewChangeMessage 3) :=
  OrdMap.empty.insert 0 ⟨0,some (unlocking state),1,0⟩

theorem unlocking_entriesMet (op : Opid) : ∀ e ∈ entriesMet finalizedAtLeader (fromReplicaZero .finalized) op,
    e = ⟨0,⟨7,1⟩,.finalized,.inconsistent,⟨"unlock",7,1⟩,""⟩ := by
  intro e mem
  obtain ⟨source,listed,got⟩ := mem_entriesMet.mp mem
  have all : ∀ source ∈ latestRecords finalizedAtLeader (fromReplicaZero .finalized), source = unlocking .finalized := by decide +kernel
  rw [all source listed,unlocking,Record.find_add] at got
  split at got <;> cases got
  rfl

theorem finality_preserved_when_final_everywhere : ∃ after merged,
    irMergeRecords ⟨⟨3,1,three_replicas⟩,mergesTo Unit ""⟩ finalizedAtLeader (fromReplicaZero .finalized) = some (after,merged) ∧
      PreservesFinality finalizedAtLeader (fromReplicaZero .finalized) merged := by
  refine (finality_preserved_iff_final_first ⟨3,1,three_replicas⟩ finalizedAtLeader (fromReplicaZero .finalized)).mpr ?_ _
    (mergesTo_mergesAll Unit "")
  intro op e member done
  have same := unlocking_entriesMet op
  cases met : entriesMet finalizedAtLeader (fromReplicaZero .finalized) op with
  | nil => rw [met] at member; cases member
  | cons d rest =>
    have first := same d (by rw [met]; exact mem_cons_self)
    have this := same e member
    refine ⟨d,?_,by rw [first],by rw [first,this],.inl rfl⟩
    rw [List.find?_cons_of_pos (by rw [first]; decide)]
    rfl

theorem finalized_operation_left_tentative : ¬ ∀ (σ : Type) (config : Configuration) (r : Replica config.n σ)
    (msgs : OrdMap (Fin config.n) (DoViewChangeMessage config.n)) (app : AppReplica σ), app.MergesAll →
    ∃ after merged, irMergeRecords ⟨config,app⟩ r msgs = some (after,merged) ∧ PreservesFinality r msgs merged := by
  intro claimed
  obtain ⟨after,merged,ran,kept⟩ := claimed Unit ⟨3,1,three_replicas⟩ finalizedAtLeader (fromReplicaZero .tentative) _
    (mergesTo_mergesAll Unit "")
  have seen : (irMergeRecords ⟨⟨3,1,three_replicas⟩,mergesTo Unit ""⟩ finalizedAtLeader (fromReplicaZero .tentative)).map
      (fun out => (out.2.find ⟨7,1⟩).map (fun e => e.state)) = some (some .tentative) := by
    decide +kernel
  rw [ran] at seen
  obtain ⟨_,found,final,_⟩ := kept.final ⟨7,1⟩ (unlocking .finalized) (by decide +kernel) _ (by rfl) rfl
  simp [found,final] at seen

end DbExp.Tapir.Ir
