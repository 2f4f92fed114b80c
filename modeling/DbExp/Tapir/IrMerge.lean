import DbExp.Tapir.LockServer

namespace DbExp.Tapir.Ir
open List
open Record (add find_add empty)

-- IrMergeRecords treats every opid by itself. What it has gathered for one opid is
-- the entry in R and the entries still undecided; an entry of another opid leaves
-- both as they are.
def Grouped.at (g : Grouped) (op : Opid) : Option RecordEntry × Option (List RecordEntry) := (g.R.find op,g.byOpid.find op)

def groupEntryAt (found : Option RecordEntry × Option (List RecordEntry)) (e : RecordEntry) :
    Option RecordEntry × Option (List RecordEntry) :=
  match e.type,e.state with
  | .inconsistent,_ => (found.1.or (some e),found.2)
  | .consensus,.finalized => (found.1.or (some e),none)
  | .consensus,.tentative => if found.1.isNone then (found.1,some (found.2.getD [] ++ [e])) else found

theorem groupEntry_here (g : Grouped) (keyed : e.opid = op) :
    (groupEntry g (op,e)).at op = groupEntryAt (g.at op) e := by
  unfold groupEntry groupEntryAt Grouped.at
  cases e.type <;> cases e.state <;> cases present : g.R.find op <;> simp [keyed,present]

theorem groupEntry_apart (g : Grouped) (keyed : e.opid = other) (apart : other ≠ op) :
    (groupEntry g (other,e)).at op = g.at op := by
  unfold groupEntry Grouped.at
  cases e.type <;> cases e.state <;> cases present : g.R.find other <;> simp [keyed,present,apart]

theorem groupRecord_at (g : Grouped) (r : Record) (op : Opid) :
    (r.entries.foldl groupEntry g).at op = (r.find op).elim (g.at op) (groupEntryAt (g.at op)) :=
  r.map.foldl_view op groupEntry (fun g => g.at op) groupEntryAt
    (fun g _ got => groupEntry_here g (r.keyed _ _ got))
    (fun g _ _ got apart => groupEntry_apart g (r.keyed _ _ got) apart) g

theorem groupEntries_at (records : List Record) (op : Opid) :
    (groupEntries records).at op = (records.filterMap (fun r => r.find op)).foldl groupEntryAt (none,none) := by
  have general (g : Grouped) : (records.foldl (fun acc r => r.entries.foldl groupEntry acc) g).at op =
      (records.filterMap (fun r => r.find op)).foldl groupEntryAt (g.at op) := by
    induction records generalizing g with
    | nil => rfl
    | cons r rest ih =>
      rw [foldl_cons,ih,groupRecord_at]
      cases got : r.find op with
      | none | some e => simp [got]
  exact general ⟨.empty,.empty⟩

-- An entry that goes into R unless the opid is there already: every entry but the
-- tentative one of a consensus operation.
def RecordEntry.Settles (e : RecordEntry) : Prop := e.type = .inconsistent ∨ e.state = .finalized

instance : DecidablePred RecordEntry.Settles := fun e => by unfold RecordEntry.Settles; infer_instance

def FinalConsensus (es : List RecordEntry) : Prop := ∃ e ∈ es, e.type = .consensus ∧ e.state = .finalized

-- What becomes of the entries of one opid, in the order they are met. The entries
-- before the first that settles the opid are dropped only when a consensus operation
-- is found finalized.
inductive Grouping (es : List RecordEntry) : Option RecordEntry × Option (List RecordEntry) → Prop where
  | ongoing (unsettled : ∀ e ∈ es, ¬ e.Settles) : Grouping es (none,if es = [] then none else some es)
  | settled (d : RecordEntry) (pre post : List RecordEntry) (split : es = pre ++ d :: post) (unsettled : ∀ e ∈ pre, ¬ e.Settles)
      (settles : d.Settles) (dropped : pre = [] ∨ FinalConsensus es) : Grouping es (some d,none)
  | lingering (d : RecordEntry) (pre post : List RecordEntry) (split : es = pre ++ d :: post) (unsettled : ∀ e ∈ pre, ¬ e.Settles)
      (settles : d.Settles) (filled : pre ≠ []) (kept : ¬ FinalConsensus es) : Grouping es (some d,some pre)

theorem finalConsensus_append : FinalConsensus (es ++ [last]) ↔ FinalConsensus es ∨ last.type = .consensus ∧ last.state = .finalized := by
  simp [FinalConsensus,or_and_right,exists_or]

theorem not_finalConsensus (unsettled : ∀ e ∈ es, ¬ e.Settles) : ¬ FinalConsensus es :=
  fun ⟨e,mem,_,done⟩ => unsettled e mem (.inr done)

theorem Grouping.further (g : Grouping es (some d,rest)) (last : RecordEntry) :
    Grouping (es ++ [last]) (groupEntryAt (some d,rest) last) := by
  have later (other : ¬ (last.type = .consensus ∧ last.state = .finalized)) : Grouping (es ++ [last]) (some d,rest) := by
    cases g with
    | settled _ pre post split unsettled settles dropped =>
      exact .settled d pre (post ++ [last]) (by simp [split]) unsettled settles (dropped.imp_right fun f => finalConsensus_append.mpr (.inl f))
    | lingering _ pre post split unsettled settles filled kept =>
      exact .lingering d pre (post ++ [last]) (by simp [split]) unsettled settles filled
        fun f => (finalConsensus_append.mp f).elim kept other
  unfold groupEntryAt
  split
  next type =>
    exact later (by simp [type])
  next type state =>
    have final : FinalConsensus (es ++ [last]) := finalConsensus_append.mpr (.inr ⟨type,state⟩)
    cases g with
    | settled _ pre post split unsettled settles _ | lingering _ pre post split unsettled settles _ _ =>
      exact .settled d pre (post ++ [last]) (by simp [split]) unsettled settles (.inr final)
  next type state =>
    exact later (by simp [state])

theorem group_grouping (es : List RecordEntry) : Grouping es (es.foldl groupEntryAt (none,none)) := by
  induction es using List.reverseRecOn with
  | nil => exact .ongoing (by simp)
  | append_singleton es last ih =>
    rw [foldl_append,foldl_cons,foldl_nil]
    generalize es.foldl groupEntryAt (none,none) = got at ih ⊢
    cases ih with
    | settled d pre post split unsettled settles dropped => exact Grouping.further (.settled d pre post split unsettled settles dropped) last
    | lingering d pre post split unsettled settles filled kept =>
      exact Grouping.further (.lingering d pre post split unsettled settles filled kept) last
    | ongoing unsettled =>
      unfold groupEntryAt
      split
      next type =>
        dsimp only [Option.none_or]
        split
        next empty =>
          exact .settled last es [] rfl unsettled (.inl type) (.inl empty)
        rename_i filled
        refine .lingering last es [] rfl unsettled (.inl type) filled fun final => ?_
        rcases finalConsensus_append.mp final with old | new
        · exact not_finalConsensus unsettled old
        · simp [type] at new
      next type state =>
        exact .settled last es [] rfl unsettled (.inr state) (.inr (finalConsensus_append.mpr (.inr ⟨type,state⟩)))
      next type state =>
        have unsettled' : ∀ e ∈ es ++ [last], ¬ e.Settles := by
          refine forall_mem_append.mpr ⟨unsettled,fun e new => ?_⟩
          cases mem_singleton.mp new
          simp [RecordEntry.Settles,type,state]
        have shape := Grouping.ongoing unsettled'
        by_cases empty : es = []
        · simpa [empty] using shape
        · simpa [empty] using shape

theorem find_unsettled {es : List RecordEntry} (unsettled : ∀ e ∈ es, ¬ e.Settles) : es.find? (fun e => e.Settles) = none := by
  simpa [List.find?_eq_none] using unsettled

theorem find_settled {pre post : List RecordEntry} (unsettled : ∀ e ∈ pre, ¬ e.Settles) (settles : d.Settles) :
    (pre ++ d :: post).find? (fun e => e.Settles) = some d := by
  rw [List.find?_append,find_unsettled unsettled]
  simp [settles]

theorem Grouping.first (g : Grouping es got) : got.1 = es.find? (fun e => e.Settles) := by
  cases g with
  | ongoing unsettled => exact (find_unsettled unsettled).symm
  | settled d pre post split unsettled settles dropped | lingering d pre post split unsettled settles filled kept =>
    rw [split]; exact (find_settled unsettled settles).symm

theorem Grouping.nonempty (g : Grouping es got) : got.2 ≠ some [] := by
  cases g with
  | ongoing unsettled => split <;> simp_all
  | settled d pre post split unsettled settles dropped => simp
  | lingering d pre post split unsettled settles filled kept => simpa using filled

theorem Grouping.members (g : Grouping es got) (group : got.2 = some rest) : ∀ e ∈ rest, e ∈ es := by
  cases g with
  | ongoing unsettled =>
    split at group
    · cases group
    · cases group
      exact fun e mem => mem
  | settled d pre post split unsettled settles dropped => cases group
  | lingering d pre post split unsettled settles filled kept =>
    cases group
    intro e mem
    rw [split]
    exact mem_append_left _ mem

theorem group_consensus {es : List RecordEntry} (consensus : ∀ e ∈ es, e.type = .consensus) :
    es.foldl groupEntryAt (none,none) =
      (es.find? (fun e => e.state = .finalized),
        if es = [] ∨ ∃ e ∈ es, e.state = .finalized then none else some es) := by
  have settles (e : RecordEntry) (mem : e ∈ es) : e.Settles ↔ e.state = .finalized := by
    simp [RecordEntry.Settles,consensus e mem]
  have same : es.find? (fun e => e.state = .finalized) = es.find? (fun e => e.Settles) :=
    List.find?_congr fun e mem => by simp [settles e mem]
  have g := group_grouping es
  generalize es.foldl groupEntryAt (none,none) = got at g
  rw [same]
  refine Prod.ext g.first ?_
  have final (d : RecordEntry) (mem : d ∈ es) (s : d.Settles) : ∃ e ∈ es, e.state = .finalized := ⟨d,mem,(settles d mem).mp s⟩
  cases g with
  | ongoing unsettled =>
    have none_final : ¬ ∃ e ∈ es, e.state = .finalized := fun ⟨e,mem,done⟩ => unsettled e mem (.inr done)
    simp [none_final]
  | settled d pre post split unsettled s dropped => exact (if_pos (.inr (final d (by simp [split]) s))).symm
  | lingering d pre post split unsettled s filled kept =>
    have mem : d ∈ es := by simp [split]
    exact (kept ⟨d,mem,consensus d mem,(settles d mem).mp s⟩).elim

def Counts (result : String) (es : List RecordEntry) : Nat := (es.map (fun e => e.result)).count result

theorem majorityResult_counts (got : majorityResult f es = some result) : (f + 1) / 2 + 1 ≤ Counts result es := by
  obtain ⟨⟨_,count⟩,first,rfl⟩ := Option.map_eq_some_iff.mp got
  have enough : (f + 1) / 2 + 1 ≤ count := by simpa using List.find?_some first
  exact enough.trans (OrdMap.mem_tally (mem_of_find?_eq_some first)).le

theorem counts_add_le (different : a ≠ b) (es : List RecordEntry) : Counts a es + Counts b es ≤ es.length := by
  induction es with
  | nil => simp [Counts]
  | cons e rest ih =>
    unfold Counts at *
    simp only [map_cons,count_cons,length_cons,beq_iff_eq]
    have one : (if e.result = a then 1 else 0) + (if e.result = b then 1 else 0) ≤ 1 := by
      split <;> split <;> simp_all
    omega

-- Among f + 1 entries two results cannot both reach the threshold, so the order in
-- which the loop looks at the results does not matter.
theorem threshold_unique (few : es.length ≤ f + 1) (first : (f + 1) / 2 + 1 ≤ Counts a es)
    (second : (f + 1) / 2 + 1 ≤ Counts b es) : a = b := by
  by_contra different
  have := counts_add_le different es
  omega

theorem majorityResult_of_threshold (few : es.length ≤ f + 1) (enough : (f + 1) / 2 + 1 ≤ Counts result es) :
    majorityResult f es = some result := by
  have present : (resultCounts es).find result = some (Counts result es) := by
    unfold Counts at *
    rw [resultCounts,OrdMap.find_tally,if_neg (by omega)]
  have some_found : ((resultCounts es).entries.find? (fun c => (f + 1) / 2 + 1 ≤ c.2)).isSome :=
    List.find?_isSome.mpr ⟨_,OrdMap.mem_entries.mpr present,by simpa using enough⟩
  obtain ⟨c,got⟩ := Option.isSome_iff_exists.mp some_found
  have selected : majorityResult f es = some c.1 := by unfold majorityResult; rw [got]; rfl
  rw [selected,threshold_unique few (majorityResult_counts selected) enough]

theorem splitEntries_at (byOpid : OrdMap Opid (List RecordEntry)) (op : Opid) :
    ((splitEntries f byOpid).d.find op,(splitEntries f byOpid).u.find op,
      (splitEntries f byOpid).majorityResultsInD.find op) =
    (byOpid.find op).elim (none,none,none) (fun es =>
      (majorityResult f es).elim (none,some es,none) (fun result => (some es,none,some result))) := by
  have walked := byOpid.foldl_view op (splitEntry f)
    (fun acc => (acc.d.find op,acc.u.find op,acc.majorityResultsInD.find op))
    (fun was es => (majorityResult f es).elim (was.1,some es,was.2.2) (fun result => (some es,was.2.1,some result)))
    (by
      intro acc es _
      unfold splitEntry
      cases majorityResult f es <;> simp)
    (by
      intro acc other es _ apart
      unfold splitEntry
      cases majorityResult f es <;> simp [apart]) ⟨.empty,.empty,.empty⟩
  exact walked

theorem foldl_add_find {entries : List RecordEntry} {r : Record} (got : (entries.foldl add r).find op = some e) :
    (e ∈ entries ∧ e.opid = op) ∨ r.find op = some e := by
  induction entries generalizing r with
  | nil => exact .inr got
  | cons x rest ih =>
    rcases ih got with ⟨mem,key⟩ | here
    · exact .inl ⟨.tail _ mem,key⟩
    rw [find_add] at here
    split at here
    · rename_i key; cases here; exact .inl ⟨mem_cons_self,key⟩
    · exact .inr here

theorem foldl_add_isSome {entries : List RecordEntry} {r : Record} (present : (r.find op).isSome) :
    ((entries.foldl add r).find op).isSome := by
  induction entries generalizing r with
  | nil => exact present
  | cons x rest ih =>
    refine ih ?_
    rw [find_add]
    split
    · rfl
    · exact present

theorem foldl_add_apart {entries : List RecordEntry} (apart : ∀ e ∈ entries, e.opid ≠ op) (r : Record) :
    (entries.foldl add r).find op = r.find op := by
  induction entries generalizing r with
  | nil => rfl
  | cons e rest ih =>
    rw [foldl_cons,ih (fun x mem => apart x (.tail _ mem)),find_add,
      if_neg (apart e mem_cons_self)]

theorem mergedEntries_mem {results : List (Opid × String)} (merged : mergedEntries view byOpid results = some entries)
    (mem : e ∈ entries) :
    ∃ result x rest, (e.opid,result) ∈ results ∧ byOpid.find e.opid = some (x :: rest) ∧
      e = ⟨view,e.opid,.finalized,x.type,x.request,result⟩ := by
  have there := mem_map_of_mem (f := some) mem
  rw [← mapM_some merged] at there
  obtain ⟨p,listed,chosen⟩ := mem_map.mp there
  split at chosen
  · cases chosen
  next x more group =>
    cases chosen
    refine ⟨p.2,x,more,listed,?_,rfl⟩
    cases got : byOpid.find p.1 with
    | none => rw [got] at group; cases group
    | some es => rw [got] at group; cases group; rfl

theorem mergedEntries_isSome {results : List (Opid × String)}
    (grouped : ∀ p ∈ results, ∃ x rest, byOpid.find p.1 = some (x :: rest)) :
    ∃ entries, mergedEntries view byOpid results = some entries := by
  induction results with
  | nil => exact ⟨[],rfl⟩
  | cons p results ih =>
    obtain ⟨entries,merged⟩ := ih (fun q mem => grouped q (.tail _ mem))
    obtain ⟨x,rest,got⟩ := grouped p mem_cons_self
    refine ⟨⟨view,p.1,.finalized,x.type,x.request,p.2⟩ :: entries,?_⟩
    unfold mergedEntries at *
    rw [mapM_cons,merged,got]
    rfl

section
variable (r : Replica n σ) (msgs : OrdMap (Fin n) (DoViewChangeMessage n)) (op : Opid)

def entriesMet : List RecordEntry := (latestRecords r msgs).filterMap (fun rec => rec.find op)

theorem entriesMet_grouping : Grouping (entriesMet r msgs op) ((groupEntries (latestRecords r msgs)).at op) := by
  rw [groupEntries_at]
  exact group_grouping _

end

theorem mem_entriesMet {r : Replica n σ} :
    e ∈ entriesMet r msgs op ↔ ∃ source ∈ latestRecords r msgs, source.find op = some e := mem_filterMap

section
variable {env : Env σ} {r : Replica env.config.n σ} {msgs : OrdMap (Fin env.config.n) (DoViewChangeMessage env.config.n)}

section
variable (merged : irMergeRecords env r msgs = some (app,record))
include merged

theorem irMergeRecords_parts :
    ∃ results entries, mergedEntries r.view (groupEntries (latestRecords r msgs)).byOpid results = some entries ∧
      record = entries.foldl add (groupEntries (latestRecords r msgs)).R := by
  obtain ⟨entries,some_entries,same⟩ := Option.map_eq_some_iff.mp merged
  cases same
  exact ⟨_,entries,some_entries,rfl⟩

theorem irMergeRecords_entry (got : record.find op = some e) :
    ∃ source ∈ latestRecords r msgs, ∃ x, source.find op = some x ∧ e.type = x.type ∧ e.request = x.request := by
  have grouping := entriesMet_grouping r msgs op
  obtain ⟨_,_,some_entries,rfl⟩ := irMergeRecords_parts merged
  rcases foldl_add_find got with ⟨mem,rfl⟩ | decided
  · obtain ⟨_,x,_,_,group,form⟩ := mergedEntries_mem some_entries mem
    obtain ⟨source,listed,here⟩ := mem_entriesMet.mp (grouping.members group x mem_cons_self)
    exact ⟨source,listed,x,here,by rw [form],by rw [form]⟩
  · obtain ⟨source,listed,here⟩ := mem_entriesMet.mp (mem_of_find?_eq_some (grouping.first.symm.trans decided))
    exact ⟨source,listed,e,here,rfl,rfl⟩

theorem irMergeRecords_inconsistent
    (listed : source ∈ latestRecords r msgs) (got : source.find op = some e) (type : e.type = .inconsistent) :
    (record.find op).isSome := by
  obtain ⟨_,_,_,rfl⟩ := irMergeRecords_parts merged
  refine foldl_add_isSome (show ((groupEntries (latestRecords r msgs)).at op).1.isSome from ?_)
  rw [(entriesMet_grouping r msgs op).first]
  exact List.find?_isSome.mpr ⟨e,mem_entriesMet.mpr ⟨source,listed,got⟩,by simp [RecordEntry.Settles,type]⟩

end

end

def mergedReplicas (me : Fin n) (msgs : OrdMap (Fin n) (DoViewChangeMessage n)) : Finset (Fin n) := insert me msgs.keys

theorem maxLatestNormalView_same {r : Replica n σ} {msgs : OrdMap (Fin n) (DoViewChangeMessage n)}
    (same : ∀ i m, msgs.find i = some m → m.latestNormalView = r.latestNormalView) :
    maxLatestNormalView r msgs = r.latestNormalView := by
  have general (entries : List (Fin n × DoViewChangeMessage n)) (best : Nat)
      (same : ∀ p ∈ entries, p.2.latestNormalView = best) :
      entries.foldl (fun best p => max best p.2.latestNormalView) best = best := by
    induction entries with
    | nil => rfl
    | cons p rest ih =>
      rw [foldl_cons,same p mem_cons_self,max_self]
      exact ih fun q mem => same q (.tail _ mem)
  exact general _ _ fun p mem => same p.1 p.2 (OrdMap.mem_entries.mp mem)

section
variable {r : Replica n σ} {msgs : OrdMap (Fin n) (DoViewChangeMessage n)} {records : Fin n → Record} {me : Fin n}
  (own : r.record = records me)
  (others : ∀ i m, msgs.find i = some m →
    i ≠ me ∧ m.record = some (records i) ∧ m.latestNormalView = r.latestNormalView)

include own others

theorem latestRecords_all : latestRecords r msgs = ((msgs.entries.map Prod.fst) ++ [me]).map records := by
  have level := maxLatestNormalView_same (fun i m got => (others i m got).2.2)
  unfold latestRecords
  rw [level,if_pos rfl,own,map_append,map_map]
  have kept : msgs.entries.filter (fun p => p.2.latestNormalView = r.latestNormalView) = msgs.entries :=
    filter_eq_self.mpr fun p mem => by
      simpa using (others p.1 p.2 (OrdMap.mem_entries.mp mem)).2.2
  rw [kept]
  refine congrArg₂ _ (map_congr_left fun p mem => ?_) rfl
  simp [(others p.1 p.2 (OrdMap.mem_entries.mp mem)).2.1]

omit own in
theorem mergers_nodup : (msgs.entries.map Prod.fst ++ [me]).Nodup := by
  refine nodup_append'.mpr ⟨?_,nodup_singleton me,?_⟩
  · rw [nodup_iff_pairwise_ne,pairwise_map]
    exact msgs.sorted.imp ne_of_lt
  · intro i sender self
    obtain ⟨p,mem,rfl⟩ := mem_map.mp sender
    exact (others p.1 p.2 (OrdMap.mem_entries.mp mem)).1 (mem_singleton.mp self)

theorem mem_merged : e ∈ entriesMet r msgs op ↔ ∃ i ∈ mergedReplicas me msgs, (records i).find op = some e := by
  rw [mem_entriesMet,latestRecords_all own others]
  simp only [mem_map,mergedReplicas,Finset.mem_insert,OrdMap.mem_keys,mem_append,
    mem_singleton,← OrdMap.mem_entries]
  constructor
  · rintro ⟨_,⟨i,place,rfl⟩,got⟩
    refine ⟨i,?_,got⟩
    rcases place with ⟨p,mem,rfl⟩ | rfl
    · exact .inr ⟨p.2,mem⟩
    · exact .inl rfl
  rintro ⟨i,place,got⟩
  refine ⟨_,⟨i,?_,rfl⟩,got⟩
  rcases place with rfl | ⟨m,mem⟩
  · exact .inr rfl
  · exact .inl ⟨(i,m),mem,rfl⟩

theorem merged_length : (entriesMet r msgs op).length ≤ msgs.size + 1 := by
  refine (length_filterMap_le _ _).trans ?_
  rw [latestRecords_all own others]
  simp [OrdMap.size]

theorem merged_counts (supporters : Finset (Fin n))
    (hold : ∀ i ∈ supporters, ∃ e, (records i).find op = some e ∧ e.result = result) :
    (supporters ∩ mergedReplicas me msgs).card ≤ Counts result (entriesMet r msgs op) := by
  let mergers := msgs.entries.map Prod.fst ++ [me]
  let agrees : Fin n → Bool := fun i => (((records i).find op).map (fun e => decide (e.result = result))).getD false
  have counted : Counts result (entriesMet r msgs op) = (mergers.filter agrees).length := by
    rw [entriesMet,latestRecords_all own others,Counts,List.count,countP_map,countP_filterMap,countP_map,
      countP_eq_length_filter]
    rfl
  rw [counted,← toFinset_card_of_nodup ((mergers_nodup others).filter _)]
  refine Finset.card_le_card fun i both => ?_
  obtain ⟨supports,merged⟩ := Finset.mem_inter.mp both
  obtain ⟨e,got,same⟩ := hold i supports
  have agreed : agrees i = true := by simp [agrees,got,same]
  refine mem_toFinset.mpr (mem_filter.mpr ⟨?_,agreed⟩)
  rcases Finset.mem_insert.mp merged with rfl | sender
  · simp
  · obtain ⟨m,listed⟩ := OrdMap.mem_keys.mp sender
    exact mem_append_left _ (mem_map.mpr ⟨(i,m),OrdMap.mem_entries.mpr listed,rfl⟩)

end

theorem fastQuorum_meets (config : Configuration) (replicas : config.n = 2 * config.f + 1) (fast merged : Finset (Fin config.n))
    (quorum : fast.card = config.fastQuorumSize) (enough : merged.card = config.f + 1) :
    (config.f + 1) / 2 + 1 ≤ (fast ∩ merged).card := by
  have sum := Finset.card_union_add_card_inter fast merged
  have all : (fast ∪ merged).card ≤ config.n := by simpa using Finset.card_le_univ (fast ∪ merged)
  unfold Configuration.fastQuorumSize at quorum
  omega

-- What IRReplica asks of Merge: results only for operations it was given.
def AppReplica.MergesGiven (app : AppReplica σ) : Prop :=
  ∀ s d u majority op, ((app.merge s d u majority).2.find op).isSome → (d.find op).isSome ∨ (u.find op).isSome

theorem lockServer_mergesGiven (wire : Lock.Wire) : (Lock.lockServer wire).MergesGiven := by
  intro locks d u majority op merged
  by_contra neither
  obtain ⟨notD,notU⟩ := not_or.mp neither
  have rejected := OrdMap.foldl_absent (Option.not_isSome_iff_eq_none.mp notU) (Lock.rejectLock wire) (fun results => results.find op)
    (fun results other es apart => by unfold Lock.rejectLock; cases es <;> simp [apart])
    (d.entries.foldl (Lock.mergeMajority wire majority) (locks,.empty)).2
  have granted := OrdMap.foldl_absent (Option.not_isSome_iff_eq_none.mp notD) (Lock.mergeMajority wire majority)
    (fun acc => acc.2.find op)
    (fun acc other es apart => by
      unfold Lock.mergeMajority
      cases es with
      | nil => rfl
      | cons e rest => dsimp only; split <;> (try split) <;> simp [apart])
    (locks,.empty)
  have none : ((Lock.lockServer wire).merge locks d u majority).2.find op = none := rejected.trans granted
  rw [none] at merged
  cases merged

theorem splitEntries_grouped (given : ((splitEntries f byOpid).d.find op).isSome ∨ ((splitEntries f byOpid).u.find op).isSome) :
    (byOpid.find op).isSome := by
  have parts := splitEntries_at (f := f) byOpid op
  cases got : byOpid.find op with
  | some es => rfl
  | none =>
    rw [got] at parts
    simp only [Option.elim_none,Prod.mk.injEq] at parts
    rw [parts.1,parts.2.1] at given
    simp at given

def mergeCall (env : Env σ) (r : Replica env.config.n σ) (msgs : OrdMap (Fin env.config.n) (DoViewChangeMessage env.config.n)) :
    σ × OrdMap Opid String :=
  let grouped := groupEntries (latestRecords r msgs)
  let split := splitEntries env.config.f grouped.byOpid
  env.app.merge (env.app.sync r.app grouped.R) split.d split.u split.majorityResultsInD

theorem irMergeRecords_runs (env : Env σ) (lawful : env.app.MergesGiven) (r : Replica env.config.n σ)
    (msgs : OrdMap (Fin env.config.n) (DoViewChangeMessage env.config.n)) :
    ∃ entries, irMergeRecords env r msgs =
        some ((mergeCall env r msgs).1,entries.foldl add (groupEntries (latestRecords r msgs)).R) ∧
      mergedEntries r.view (groupEntries (latestRecords r msgs)).byOpid (mergeCall env r msgs).2.entries = some entries := by
  have grouped (p : Opid × String) (mem : p ∈ (mergeCall env r msgs).2.entries) :
      ∃ x rest, (groupEntries (latestRecords r msgs)).byOpid.find p.1 = some (x :: rest) := by
    have answered : ((mergeCall env r msgs).2.find p.1).isSome := by rw [OrdMap.mem_entries.mp mem]; rfl
    obtain ⟨es,got⟩ := Option.isSome_iff_exists.mp (splitEntries_grouped (lawful _ _ _ _ _ answered))
    cases es with
    | cons x rest => exact ⟨x,rest,got⟩
    | nil => exact absurd got (entriesMet_grouping r msgs p.1).nonempty
  obtain ⟨entries,merged⟩ : ∃ entries, mergedEntries r.view _ (mergeCall env r msgs).2.entries = some entries :=
    mergedEntries_isSome grouped
  refine ⟨entries,?_,merged⟩
  change (mergedEntries r.view _ (mergeCall env r msgs).2.entries).map _ = _
  rw [merged]
  rfl

theorem irMergeRecords_keeps (env : Env σ) (lawful : env.app.MergesGiven) {r : Replica env.config.n σ}
    {msgs : OrdMap (Fin env.config.n) (DoViewChangeMessage env.config.n)}
    (decided : (groupEntries (latestRecords r msgs)).R.find op = some e)
    (settled : (groupEntries (latestRecords r msgs)).byOpid.find op = none) :
    ∃ app merged, irMergeRecords env r msgs = some (app,merged) ∧ merged.find op = some e := by
  obtain ⟨_,ran,merged⟩ := irMergeRecords_runs env lawful r msgs
  refine ⟨_,_,ran,?_⟩
  rw [foldl_add_apart _ _]
  · exact decided
  rintro _ mem rfl
  obtain ⟨_,_,_,_,got,_⟩ := mergedEntries_mem merged mem
  rw [settled] at got
  cases got

-- A result that a whole fast quorum recorded is what the merge ends with, or what it
-- hands to the application as the majority result, as long as no merged record holds
-- the operation finalized with something else.
theorem fast_quorum_result_survives_merge (env : Env σ) (replicas : env.config.n = 2 * env.config.f + 1)
    (lawful : env.app.MergesGiven) (me : Fin env.config.n) (records : Fin env.config.n → Record) (op : Opid) (result : String)
    (fast : Finset (Fin env.config.n)) (quorum : fast.card = env.config.fastQuorumSize)
    (hold : ∀ i ∈ fast, ∃ e, (records i).find op = some e ∧ e.result = result)
    (r : Replica env.config.n σ) (own : r.record = records me)
    (msgs : OrdMap (Fin env.config.n) (DoViewChangeMessage env.config.n)) (enough : msgs.size = env.config.f)
    (others : ∀ i m, msgs.find i = some m →
      i ≠ me ∧ m.record = some (records i) ∧ m.latestNormalView = r.latestNormalView)
    (consensus : ∀ i ∈ mergedReplicas me msgs, ∀ e, (records i).find op = some e → e.type = .consensus)
    (agreed : ∀ i ∈ mergedReplicas me msgs, ∀ e, (records i).find op = some e → e.state = .finalized → e.result = result) :
    let split := splitEntries env.config.f (groupEntries (latestRecords r msgs)).byOpid
    ((∃ i ∈ mergedReplicas me msgs, ∃ e, (records i).find op = some e ∧ e.state = .finalized ∧ e.result = result) →
      ∃ app merged, irMergeRecords env r msgs = some (app,merged) ∧
        ∃ e, merged.find op = some e ∧ e.state = .finalized ∧ e.result = result) ∧
    ((¬ ∃ i ∈ mergedReplicas me msgs, ∃ e, (records i).find op = some e ∧ e.state = .finalized ∧ e.result = result) →
      ∃ es, split.d.find op = some es ∧ split.majorityResultsInD.find op = some result ∧
        ∀ other, (env.config.f + 1) / 2 + 1 ≤ Counts other es → other = result) := by
  intro split
  let es := entriesMet r msgs op
  have listed (e : RecordEntry) : e ∈ es ↔ ∃ i ∈ mergedReplicas me msgs, (records i).find op = some e := mem_merged own others
  have grouped : (groupEntries (latestRecords r msgs)).at op = _ :=
    (groupEntries_at _ op).trans (group_consensus fun e member => by
      obtain ⟨i,merged,found⟩ := (listed e).mp member
      exact consensus i merged e found)
  obtain ⟨inR,inGroups⟩ := Prod.mk.inj grouped
  refine ⟨?_,?_⟩
  · rintro ⟨i,merged,e,found,done,_⟩
    have member : e ∈ es := (listed e).mpr ⟨i,merged,found⟩
    obtain ⟨first,is_first⟩ := Option.isSome_iff_exists.mp
      (List.find?_isSome.mpr ⟨e,member,by simpa using done⟩ : (es.find? (fun e => e.state = .finalized)).isSome)
    have first_done : first.state = .finalized := by simpa using List.find?_some is_first
    obtain ⟨j,from_j,of_j⟩ := (listed first).mp (mem_of_find?_eq_some is_first)
    obtain ⟨app,result_record,merges,kept⟩ := irMergeRecords_keeps env lawful (inR.trans is_first)
      (inGroups.trans (if_pos (.inr ⟨e,member,done⟩)))
    exact ⟨app,result_record,merges,first,kept,first_done,agreed j from_j first of_j first_done⟩
  intro ongoing
  have no_final : ¬ ∃ e ∈ es, e.state = .finalized := by
    rintro ⟨e,member,done⟩
    obtain ⟨i,merged,found⟩ := (listed e).mp member
    exact ongoing ⟨i,merged,e,found,done,agreed i merged e found done⟩
  have size : (mergedReplicas me msgs).card = env.config.f + 1 := by
    have apart : me ∉ msgs.keys := by
      intro self
      obtain ⟨m,found⟩ := OrdMap.mem_keys.mp self
      exact (others me m found).1 rfl
    rw [mergedReplicas,Finset.card_insert_of_notMem apart,OrdMap.card_keys,enough]
  have supported : (env.config.f + 1) / 2 + 1 ≤ Counts result es :=
    (fastQuorum_meets env.config replicas fast _ quorum size).trans (merged_counts own others fast hold)
  have few : es.length ≤ env.config.f + 1 := enough ▸ merged_length own others
  have present : es ≠ [] := by
    intro empty
    rw [empty] at supported
    simp [Counts] at supported
  have group : (groupEntries (latestRecords r msgs)).byOpid.find op = some es :=
    inGroups.trans (if_neg (by rintro (empty | final) <;> contradiction))
  have parts := splitEntries_at (f := env.config.f) (groupEntries (latestRecords r msgs)).byOpid op
  rw [group,Option.elim_some,majorityResult_of_threshold few supported] at parts
  obtain ⟨inD,_,majority⟩ := by simpa only [Option.elim_some,Prod.mk.injEq] using parts
  exact ⟨es,inD,majority,fun other reaches => threshold_unique few reaches supported⟩

def five : Env Lock.Locks := ⟨⟨5,2,by decide⟩,Lock.lockServer Lock.plainText⟩

def lockOp : Opid := ⟨7,1⟩

def granted : String := Lock.Reply.text ⟨"k",0⟩

def refused : String := Lock.Reply.text ⟨"k",-1⟩

def holding (state : RecordEntryState) (result : String) : Record :=
  empty.add ⟨0,lockOp,state,.consensus,⟨Lock.Request.text ⟨7,"k",true⟩,7,1⟩,result⟩

def grantedBy (state : RecordEntryState) (i : Fin 5) : Record :=
  if i = 4 then .empty else if i = 2 then holding state granted else holding .tentative granted

def leading (record : Record) : Replica 5 Lock.Locks := {Replica.new five .empty with
  status := .viewChange
  view := 1
  record := record}

def fromTwo (records : Fin 5 → Record) (a b : Fin 5) : OrdMap (Fin 5) (DoViewChangeMessage 5) :=
  (OrdMap.empty.insert a ⟨a,some (records a),1,0⟩).insert b ⟨b,some (records b),1,0⟩

theorem grantedBy_entry (got : (grantedBy state i).find lockOp = some e) : e.type = .consensus ∧ e.result = granted := by
  unfold grantedBy at got
  split at got
  · cases got
  split at got <;>
  · rw [holding,find_add,if_pos rfl] at got
    cases got
    exact ⟨rfl,rfl⟩

theorem fromTwo_sender (apart : a ≠ me ∧ b ≠ me) (got : (fromTwo records a b).find i = some m) :
    i ≠ me ∧ m.record = some (records i) ∧ m.latestNormalView = (leading (records me)).latestNormalView := by
  unfold fromTwo at got
  rw [OrdMap.find_insert,OrdMap.find_insert] at got
  split at got
  · rename_i same; cases got; subst same; exact ⟨apart.2,rfl,rfl⟩
  · split at got
    · rename_i same; cases got; subst same; exact ⟨apart.1,rfl,rfl⟩
    · cases got

theorem granted_lock_survives_merge :
    (∃ app merged, irMergeRecords five (leading (grantedBy .finalized 1)) (fromTwo (grantedBy .finalized) 2 4) = some (app,merged) ∧
      ∃ e, merged.find lockOp = some e ∧ e.state = .finalized ∧ e.result = granted) ∧
    (∃ es, (splitEntries 2 (groupEntries
          (latestRecords (leading (grantedBy .tentative 1)) (fromTwo (grantedBy .tentative) 2 4))).byOpid).d.find lockOp = some es ∧
      (splitEntries 2 (groupEntries
          (latestRecords (leading (grantedBy .tentative 1)) (fromTwo (grantedBy .tentative) 2 4))).byOpid).majorityResultsInD.find lockOp =
        some granted ∧
      ∀ other, 2 ≤ Counts other es → other = granted) := by
  have hold (state : RecordEntryState) (i : Fin 5) (member : i ∈ ({0,1,2,3} : Finset (Fin 5))) :
      ∃ e, (grantedBy state i).find lockOp = some e ∧ e.result = granted := by
    have within : i ≠ 4 := by rintro rfl; revert member; decide
    unfold grantedBy
    rw [if_neg within]
    split <;> exact ⟨_,rfl,rfl⟩
  have survives (state : RecordEntryState) := fast_quorum_result_survives_merge five rfl (lockServer_mergesGiven _) (1 : Fin 5)
    (grantedBy state) lockOp granted ({0,1,2,3} : Finset (Fin 5)) rfl (hold state)
    (leading (grantedBy state 1)) rfl (fromTwo (grantedBy state) 2 4) rfl
    (fun i m found => fromTwo_sender (by decide) found) (fun i _ e found => (grantedBy_entry found).1)
    (fun i _ e found _ => (grantedBy_entry found).2)
  refine ⟨(survives .finalized).1 ⟨(2 : Fin 5),Finset.mem_insert_of_mem (OrdMap.mem_keys.mpr ⟨_,rfl⟩),_,rfl,rfl,rfl⟩,(survives .tentative).2 ?_⟩
  rintro ⟨i,_,e,found,done,_⟩
  unfold grantedBy at found
  split at found
  · cases found
  split at found <;>
  · rw [holding,find_add,if_pos rfl] at found
    cases found
    cases done

def refusedAtFirst (i : Fin 5) : Record := if i = 0 then holding .finalized refused else
  if i = 2 then holding .finalized granted else holding .tentative granted

theorem foreign_final_result_wins_merge :
    five.config.fastQuorumSize = 4 ∧
    (∀ i ∈ ([1,2,3,4] : List (Fin 5)), ((refusedAtFirst i).find lockOp).map (fun e => (e.type,e.result)) =
      some (.consensus,granted)) ∧
    ((refusedAtFirst 2).find lockOp).map (fun e => (e.state,e.result)) = some (.finalized,granted) ∧
    (fromTwo refusedAtFirst 0 2).size = five.config.f ∧
    (irMergeRecords five (leading (refusedAtFirst 1)) (fromTwo refusedAtFirst 0 2)).map
        (fun out => (out.2.find lockOp).map (fun e => (e.state,e.result))) = some (some (.finalized,refused)) ∧
    granted ≠ refused := by
  decide +kernel

end DbExp.Tapir.Ir
