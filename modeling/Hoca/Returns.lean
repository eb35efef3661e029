import Mathlib

namespace Hoca

variable {α β : Type}

-- Every result of a computation satisfies the postcondition. It may have none.
def Returns (x : Option α) (Q : α → Prop) : Prop := ∀ a, x = some a → Q a

namespace Returns

variable {x : Option α} {f : α → Option β} {P Q : α → Prop} {R : β → Prop}

theorem absent : Returns none Q := fun _ h => by cases h

theorem value {a : α} (h : Q a) : Returns (some a) Q := fun _ ha => Option.some.inj ha ▸ h

theorem mono (h : Returns x P) (hPQ : ∀ a, P a → Q a) : Returns x Q := fun a ha => hPQ a (h a ha)

theorem bind (h : Returns x P) (hf : ∀ a, P a → Returns (f a) R) : Returns (x >>= f) R := by
  intro b hb
  obtain ⟨a, ha, hfa⟩ := Option.bind_eq_some_iff.mp hb
  exact hf a (h a ha) b hfa

-- Nothing is known of the first result.
theorem any (hf : ∀ a, Returns (f a) R) : Returns (x >>= f) R := by
  intro b hb
  obtain ⟨a, -, hfa⟩ := Option.bind_eq_some_iff.mp hb
  exact hf a b hfa

end Returns

end Hoca
