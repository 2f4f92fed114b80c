import DbExp.Aria.Batch

namespace DbExp.Aria
open BitField

def Least (x : Nat) (ids : Nat → Prop) : Prop := x = 0 ∧ (∀ y, ¬ ids y) ∨ 0 < x ∧ ids x ∧ ∀ y, ids y → x ≤ y

theorem Least.below (least : Least x ids) (n : Nat) : x < n ∧ x ≠ 0 ↔ ∃ y, ids y ∧ y < n := by
  rcases least with ⟨rfl,none⟩ | ⟨_,here,first⟩
  · exact ⟨fun both => absurd rfl both.2,fun ⟨y,mem,_⟩ => absurd mem (none y)⟩
  · refine ⟨fun both => ⟨x,here,both.1⟩,?_⟩
    rintro ⟨y,mem,less⟩
    exact ⟨(first y mem).trans_lt less,by omega⟩

theorem Least.insert_kept (least : Least x ids) (less : x < tid) (some : x ≠ 0) : Least x fun y => y = tid ∨ ids y := by
  rcases least with ⟨zero,_⟩ | ⟨positive,here,first⟩
  · exact absurd zero some
  refine .inr ⟨positive,.inr here,?_⟩
  rintro y (rfl | mem)
  · omega
  · exact first y mem

theorem Least.insert_new (least : Least x ids) (positive : 0 < tid) (other : ¬ (x < tid ∧ x ≠ 0)) :
    Least tid fun y => y = tid ∨ ids y := by
  refine .inr ⟨positive,.inl rfl,?_⟩
  rintro y (rfl | mem)
  · exact le_rfl
  rcases least with ⟨_,none⟩ | ⟨_,_,first⟩
  · exact absurd mem (none y)
  · have := first y mem
    omega

def Marks (epoch : Nat) (w : Word) (readers writers : Nat → Prop) : Prop :=
  (getEpoch w < epoch ∧ (∀ y, ¬ readers y) ∧ ∀ y, ¬ writers y) ∨
  (getEpoch w = epoch ∧ Least (getRts w) readers ∧ Least (getWts w) writers)

theorem Marks.congr (marks : Marks epoch w readers writers) (reads : ∀ y, readers y ↔ otherReaders y)
    (writes : ∀ y, writers y ↔ otherWriters y) : Marks epoch w otherReaders otherWriters := by
  obtain rfl : readers = otherReaders := funext fun y => propext (reads y)
  obtain rfl : writers = otherWriters := funext fun y => propext (writes y)
  exact marks

section
variable {w : Word} {readers writers : Nat → Prop}

theorem reserve_least (getTs otherTs : Word → Nat) (setTs : Word → Nat → Word) (mine : ∀ v, getTs (setTs v tid) = tid)
    (other : ∀ v, otherTs (setTs v tid) = otherTs v) (same : ∀ v, getEpoch (setTs v tid) = getEpoch v)
    (clear : otherTs (setEpoch 0 epoch) = 0) (positive : 0 < tid) (small : tid < 2^20) (fits : epoch < 2^24)
    (before : getEpoch w < epoch ∧ (∀ y, ¬ ids y) ∧ (∀ y, ¬ others y) ∨
      getEpoch w = epoch ∧ Least (getTs w) ids ∧ Least (otherTs w) others) :
    ∃ v, reserve getTs setTs w epoch tid = some v ∧ getEpoch v = epoch ∧
      Least (getTs v) (fun y => y = tid ∨ ids y) ∧ Least (otherTs v) others := by
  have word : tid % 2^32 = tid := Nat.mod_eq_of_lt (small.trans (by decide))
  unfold reserve
  rw [word]
  rcases before with ⟨old,noId,noOther⟩ | ⟨current,least,kept⟩
  · rw [if_neg (by omega),if_pos old]
    refine ⟨_,rfl,(same _).trans (get_set fits (by omega)),?_,?_⟩
    · rw [mine]
      exact Least.insert_new (x := 0) (.inl ⟨rfl,noId⟩) positive (by simp)
    · rw [other,clear]
      exact .inl ⟨rfl,noOther⟩
  rw [if_neg (by omega),if_neg (by omega)]
  by_cases earlier : getTs w < tid ∧ getTs w ≠ 0
  · rw [if_pos earlier]
    exact ⟨w,rfl,current,least.insert_kept earlier.1 earlier.2,kept⟩
  rw [if_neg earlier]
  refine ⟨_,rfl,(same w).trans current,?_,?_⟩
  · rw [mine]; exact least.insert_new positive earlier
  · rw [other]; exact kept

section
variable (marks : Marks epoch w readers writers)
include marks

theorem reserveRead_marks (positive : 0 < tid) (small : tid < 2^20) (fits : epoch < 2^24) :
    ∃ v, reserveRead w epoch tid = some v ∧ Marks epoch v (fun y => y = tid ∨ readers y) writers := by
  obtain ⟨v,done,current,reads,writes⟩ := reserve_least getRts getWts setRts
    (fun v => get_set small (by omega)) (fun v => get_set_apart small (by omega)) (fun v => get_set_apart small (by omega))
    ((get_set_apart fits (by omega)).trans (get_zero _ _)) positive small fits marks
  exact ⟨v,done,.inr ⟨current,reads,writes⟩⟩

theorem reserveWrite_marks (positive : 0 < tid) (small : tid < 2^20) (fits : epoch < 2^24) :
    ∃ v, reserveWrite w epoch tid = some v ∧ Marks epoch v readers (fun y => y = tid ∨ writers y) := by
  obtain ⟨v,done,current,writes,reads⟩ := reserve_least getWts getRts setWts
    (fun v => get_set small (by omega)) (fun v => get_set_apart small (by omega)) (fun v => get_set_apart small (by omega))
    ((get_set_apart fits (by omega)).trans (get_zero _ _)) positive small fits
    (marks.imp (fun old => ⟨old.1,old.2.2,old.2.1⟩) fun now => ⟨now.1,now.2.2,now.2.1⟩)
  exact ⟨v,done,.inr ⟨current,reads,writes⟩⟩

theorem Marks.written_below (n : Nat) :
    getEpoch w = epoch ∧ getWts w < n ∧ getWts w ≠ 0 ↔ ∃ y, writers y ∧ y < n := by
  rcases marks with ⟨_,_,none⟩ | ⟨current,_,writes⟩
  · refine iff_of_false (by omega) ?_
    rintro ⟨y,mem,_⟩
    exact none y mem
  · rw [writes.below]
    exact and_iff_right current

theorem Marks.read_below (n : Nat) :
    getEpoch w = epoch ∧ getRts w < n ∧ getRts w ≠ 0 ↔ ∃ y, readers y ∧ y < n := by
  rcases marks with ⟨_,none,_⟩ | ⟨current,reads,_⟩
  · refine iff_of_false (by omega) ?_
    rintro ⟨y,mem,_⟩
    exact none y mem
  · rw [reads.below]
    exact and_iff_right current

end

end
end DbExp.Aria
