import DbExp.Tapir.LockDecision

namespace DbExp.Tapir.Lock

section
variable (wire : Wire)

def lockText (client : Nat) (key : String) : String := wire.request.serializeToString ⟨client,key,true⟩

def resultMap (replies : Fin n → Nat → String) (origin : Finset (Fin n)) (client : Nat) : OrdMap String Nat :=
  .tally (((List.finRange n).filter (· ∈ origin)).map fun i => replies i client)

def GrantsOnce (replies : Fin n → Nat → String) : Prop :=
  ∀ i a b, Granted wire (replies i a) → Granted wire (replies i b) → a = b

def Excludes (config : Configuration) : Prop :=
  ∀ replies : Fin config.n → Nat → String, GrantsOnce wire replies → ∀ a b, a ≠ b →
    ∀ A B : Finset (Fin config.n), config.quorumSize ≤ A.card → config.quorumSize ≤ B.card →
      ¬ (Granted wire (decide wire (resultMap replies A a)) ∧ Granted wire (decide wire (resultMap replies B b)))

def replicated (f : Nat) : Configuration := ⟨2 * f + 1,f,Nat.succ_pos (2 * f)⟩

theorem granted_resultMap (replies : Fin n → Nat → String) (origin : Finset (Fin n)) (client : Nat) :
    Granted wire (decide wire (resultMap replies origin client)) ↔
      2 ≤ (origin.filter fun i => Granted wire (replies i client)).card := by
  have listed : (origin.filter fun i => Granted wire (replies i client)) =
      (((List.finRange n).filter (· ∈ origin)).filter fun i => Granted wire (replies i client)).toFinset := by
    ext i
    simp [and_comm]
  rw [resultMap,granted_decide,List.countP_map,List.countP_eq_length_filter,listed,List.toFinset_card_of_nodup]
  · rfl
  · exact ((List.nodup_finRange n).filter _).filter _

def firstComes (first : Fin n → Nat) (key : String) (i : Fin n) (client : Nat) : String :=
  (execConsensusUpcall wire (execConsensusUpcall wire .empty (lockText wire (first i) key)).1 (lockText wire client key)).2

theorem granted_firstComes (first : Fin n → Nat) (key : String) (i : Fin n) (client : Nat) :
    Granted wire (firstComes wire first key i client) ↔ client = first i := by
  have held : (execConsensusUpcall wire .empty (lockText wire (first i) key)).1 = OrdMap.insert .empty key (first i) := by
    simp [execConsensusUpcall,lockText,wire.request.parse_serialize]
  unfold firstComes
  rw [held]
  simp only [Granted,execConsensusUpcall,lockText,wire.request.parse_serialize,if_true,OrdMap.find_insert,wire.reply.parse_serialize]
  split
  next same =>
    simp [same]
  next other =>
    simp [Ne.symm other]

theorem firstComes_once (first : Fin n → Nat) (key : String) : GrantsOnce wire (firstComes wire first key) := by
  intro i a b one two
  rw [granted_firstComes] at one two
  exact one.trans two.symm

def twoAndRest (i : Fin n) : Nat := if i.val < 2 then 1 else 2

theorem twoAndRest_granted (many : 4 ≤ n) (client : Nat) (either : client = 1 ∨ client = 2) :
    Granted wire (decide wire (resultMap (firstComes wire (twoAndRest (n := n)) "k") Finset.univ client)) := by
  rw [granted_resultMap]
  simp only [granted_firstComes]
  rcases either with rfl | rfl
  · refine Finset.one_lt_card.mpr ⟨⟨0,by omega⟩,?_,⟨1,by omega⟩,?_,by simp⟩
    · simp [twoAndRest]
    · simp [twoAndRest]
  · refine Finset.one_lt_card.mpr ⟨⟨2,by omega⟩,?_,⟨3,by omega⟩,?_,by simp⟩
    · simp [twoAndRest]
    · simp [twoAndRest]

theorem not_excludes (config : Configuration) (many : 4 ≤ config.n) (quorum : config.quorumSize ≤ config.n) : ¬ Excludes wire config := by
  intro excludes
  have all : config.quorumSize ≤ (Finset.univ : Finset (Fin config.n)).card := by rwa [Finset.card_univ,Fintype.card_fin]
  exact excludes (firstComes wire twoAndRest "k") (firstComes_once wire twoAndRest "k") 1 2 (by decide) Finset.univ Finset.univ all all
    ⟨twoAndRest_granted wire many 1 (.inl rfl),twoAndRest_granted wire many 2 (.inr rfl)⟩

theorem excludes_iff_three_replicas (f : Nat) (positive : 1 ≤ f) : Excludes wire (replicated f) ↔ f = 1 := by
  constructor
  · intro excludes
    by_contra more
    refine not_excludes wire (replicated f) ?_ ?_ excludes
    · change 4 ≤ 2 * f + 1
      omega
    · change f + 1 ≤ 2 * f + 1
      omega
  rintro rfl replies once a b apart A B _ _ ⟨one,two⟩
  rw [granted_resultMap] at one two
  have disjoint : Disjoint (A.filter fun i => Granted wire (replies i a)) (B.filter fun i => Granted wire (replies i b)) := by
    rw [Finset.disjoint_left]
    intro i mine theirs
    exact apart (once i a b (Finset.mem_filter.mp mine).2 (Finset.mem_filter.mp theirs).2)
  have room := Finset.card_le_univ ((A.filter fun i => Granted wire (replies i a)) ∪ B.filter fun i => Granted wire (replies i b))
  rw [Finset.card_union_of_disjoint disjoint,Fintype.card_fin] at room
  have three : (replicated 1).n = 3 := rfl
  omega

end

theorem excludes_with_three_replicas : Excludes plainText (replicated 1) := (excludes_iff_three_replicas plainText 1 (by decide)).mpr rfl

theorem two_holders_of_five : ¬ ∀ (wire : Wire) (f : Nat), 1 ≤ f → Excludes wire (replicated f) := by
  intro claimed
  exact not_excludes plainText (replicated 2) (by decide) (by decide) (claimed plainText 2 (by decide))

end DbExp.Tapir.Lock
