import Mathlib

namespace Hoca

-- A value in an int or a long: 32 bits, with a sign.
def toLong (n : Int) : Int := n.bmod (2 ^ 32)

def InRange (n : Int) : Prop := -2 ^ 31 ≤ n ∧ n < 2 ^ 31

instance (n : Int) : Decidable (InRange n) := inferInstanceAs (Decidable (_ ∧ _))

theorem toLong_bounds (n : Int) : -2 ^ 31 ≤ toLong n ∧ toLong n < 2 ^ 31 := by
  have hle := Int.le_bmod (x := n) (m := 2 ^ 32) (by decide)
  have hlt := Int.bmod_lt (x := n) (m := 2 ^ 32) (by decide)
  unfold toLong
  omega

theorem toLong_add_mul (n : Int) : ∃ k, toLong n + 2 ^ 32 * k = n :=
  ⟨n.bdiv (2 ^ 32), Int.bmod_add_bdiv n (2 ^ 32)⟩

theorem toLong_of_bounds {n : Int} (h : -2 ^ 31 ≤ n) (h' : n < 2 ^ 31) : toLong n = n := by
  have hb := toLong_bounds n
  obtain ⟨k, hk⟩ := toLong_add_mul n
  omega

theorem InRange.toLong_eq {n : Int} (h : InRange n) : toLong n = n :=
  toLong_of_bounds h.1 h.2

-- A sum that is kept in a long is the sum of all it was made of, kept in a long.
theorem toLong_add_toLong (a b : Int) : toLong (toLong a + b) = toLong (a + b) :=
  Int.bmod_add_bmod

theorem toLong_eq_iff {a b : Int} : toLong a = toLong b ↔ (2 ^ 32 : Int) ∣ a - b := by
  obtain ⟨i, hi⟩ := toLong_add_mul a
  obtain ⟨j, hj⟩ := toLong_add_mul b
  have ha := toLong_bounds a
  have hb := toLong_bounds b
  constructor
  · intro h
    exact ⟨i - j, by omega⟩
  · rintro ⟨k, hk⟩
    omega

theorem toLong_sub_eq_iff {a b : Int} : toLong (a - b) = a ↔ InRange a ∧ (2 ^ 32 : Int) ∣ b := by
  constructor
  · intro h
    have hrange : InRange a := h ▸ toLong_bounds (a - b)
    refine ⟨hrange, ?_⟩
    have heq := toLong_eq_iff.mp (hrange.toLong_eq.trans h.symm)
    rwa [sub_sub_cancel] at heq
  · rintro ⟨hrange, hb⟩
    rw [← hrange.toLong_eq, toLong_eq_iff, hrange.toLong_eq, sub_sub_cancel_left]
    exact hb.neg_right

end Hoca
