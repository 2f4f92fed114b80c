import Mathlib.Tactic.Basic

namespace DbExp

def Ensures (x : Option α) (post : α → Prop) : Prop := ∀ a, x = some a → post a

namespace Ensures
variable {x y : Option α} {post : α → Prop} {c : Prop} [Decidable c]

theorem fail : Ensures (none : Option α) post := nofun

theorem ret (holds : post a) : Ensures (some a) post := fun _ done => Option.some.inj done ▸ holds

theorem bind (first : Ensures x mid) (rest : ∀ a, mid a → Ensures (f a) post') : Ensures (x.bind f) post' := by
  intro b done
  obtain ⟨a,here,next⟩ := Option.bind_eq_some_iff.mp done
  exact rest a (first a here) b next

theorem map {f : α → β} {post' : β → Prop} (first : Ensures x mid) (rest : ∀ a, mid a → post' (f a)) : Ensures (x.map f) post' := by
  intro b done
  obtain ⟨a,here,rfl⟩ := Option.map_eq_some_iff.mp done
  exact rest a (first a here)

theorem ite (yes : c → Ensures x post) (no : ¬ c → Ensures y post) : Ensures (if c then x else y) post := by
  split
  next holds =>
    exact yes holds
  next fails =>
    exact no fails

theorem assert (past : c → Ensures x post) : Ensures (if c then x else none) post := ite past fun _ => fail

theorem ite_eq (yes : Ensures x (· = a)) (no : Ensures y (· = b)) : Ensures (if c then x else y) (· = if c then a else b) := by
  split
  · exact yes
  · exact no

end Ensures

end DbExp
