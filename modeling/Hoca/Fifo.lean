import Mathlib

namespace Fifo

variable {α : Type*} {old mid new : List α} {a b : α}

-- The first of the two stands before the second.
def Ahead (l : List α) (a b : α) : Prop := [a, b].Sublist l

-- Some have left the queue, and others have joined it at its end.
def Advances (old new : List α) : Prop :=
  ∃ kept joined, new = kept ++ joined ∧ kept.Sublist old ∧ ∀ a ∈ joined, a ∉ old

theorem Ahead.mem_left (h : Ahead old a b) : a ∈ old := h.subset (by simp)

theorem Ahead.mem_right (h : Ahead old a b) : b ∈ old := h.subset (by simp)

theorem ahead_append (front back : List α) (ha : a ∈ front) (hb : b ∈ back) :
    Ahead (front ++ back) a b :=
  (List.singleton_sublist.mpr ha).append (List.singleton_sublist.mpr hb)

theorem ahead_cons {c : α} {l : List α} : Ahead (c :: l) a b ↔ Ahead l a b ∨ (a = c ∧ b ∈ l) := by
  constructor
  · intro h
    rcases List.sublist_cons_iff.mp h with h | ⟨r, heq, h⟩
    · exact Or.inl h
    · obtain ⟨rfl, rfl⟩ := List.cons.inj heq
      exact Or.inr ⟨rfl, List.singleton_sublist.mp h⟩
  · rintro (h | ⟨rfl, hb⟩)
    · exact List.Sublist.cons c h
    · exact (List.singleton_sublist.mpr hb).cons_cons a

-- In a queue without repetitions the order of two that stay is kept.
theorem Ahead.sublist (h : Ahead old a b) (hsub : new.Sublist old) (hnodup : old.Nodup)
    (ha : a ∈ new) (hb : b ∈ new) : Ahead new a b := by
  induction hsub with
  | slnil => cases ha
  | @cons l l' c hl ih =>
      obtain ⟨hc, hnodup⟩ := List.nodup_cons.mp hnodup
      rcases ahead_cons.mp h with h | ⟨rfl, -⟩
      · exact ih h hnodup ha hb
      · exact absurd (hl.subset ha) hc
  | @cons_cons l l' c hl ih =>
      obtain ⟨hc, hnodup⟩ := List.nodup_cons.mp hnodup
      rw [ahead_cons] at h ⊢
      rcases h with h | ⟨rfl, hb'⟩
      · have hne : ∀ d ∈ l', d ≠ c := fun d hd heq => hc (heq ▸ hd)
        exact Or.inl (ih h hnodup ((List.mem_cons.mp ha).resolve_left (hne a h.mem_left))
          ((List.mem_cons.mp hb).resolve_left (hne b h.mem_right)))
      · refine Or.inr ⟨rfl, (List.mem_cons.mp hb).resolve_left ?_⟩
        rintro rfl
        exact hc hb'

theorem Advances.refl (l : List α) : Advances l l := ⟨l, [], by simp, List.Sublist.refl l, by simp⟩

theorem Advances.of_sublist (h : new.Sublist old) : Advances old new := ⟨new, [], by simp, h, by simp⟩

theorem advances_snoc (ha : a ∉ old) : Advances old (old ++ [a]) :=
  ⟨old, [a], rfl, List.Sublist.refl old, by simpa using ha⟩

-- Who stays and who was there is among those kept.
theorem Advances.ahead (h : Advances old new) (hnodup : old.Nodup) (hab : Ahead old a b)
    (ha : a ∈ new) (hb : b ∈ new) : Ahead new a b := by
  obtain ⟨kept, joined, rfl, hsub, hjoined⟩ := h
  have hkept : ∀ c ∈ old, c ∈ kept ++ joined → c ∈ kept := fun c hc hm =>
    (List.mem_append.mp hm).resolve_right fun hj => hjoined c hj hc
  exact (hab.sublist hsub hnodup (hkept a hab.mem_left ha) (hkept b hab.mem_right hb)).trans
    (List.sublist_append_left kept joined)

theorem Advances.joins (h : Advances old new) (ha : a ∈ old) (ha' : a ∈ new) (hb : b ∉ old)
    (hb' : b ∈ new) : Ahead new a b := by
  obtain ⟨kept, joined, rfl, hsub, hjoined⟩ := h
  refine ahead_append kept joined ?_ ?_
  · exact (List.mem_append.mp ha').resolve_right fun hj => hjoined a hj ha
  · exact (List.mem_append.mp hb').resolve_left fun hk => hb (hsub.subset hk)

theorem Ahead.of_tail (h : Ahead old.tail a b) : Ahead old a b := h.trans (List.tail_sublist old)

-- Behind the head the order is the same.
theorem Ahead.tail (h : Ahead new a b) (hnodup : new.Nodup) (ha : a ∈ new.tail) :
    Ahead new.tail a b := by
  cases new with
  | nil => cases ha
  | cons c rest =>
      rcases ahead_cons.mp h with h | ⟨rfl, -⟩
      · exact h
      · exact absurd ha (List.nodup_cons.mp hnodup).1

theorem Ahead.rotate (h : Ahead old.tail a b) : Ahead (old.rotate 1) a b := by
  cases old with
  | nil => exact h
  | cons c rest =>
      rw [List.rotate_cons_succ, List.rotate_zero]
      exact h.trans (List.sublist_append_left rest [c])

-- The head has nobody ahead of it.
theorem Ahead.ne_head (h : Ahead old a b) (hnodup : old.Nodup) : old.head? ≠ some b := by
  cases old with
  | nil => simp
  | cons c rest =>
      intro hc
      rw [List.head?_cons, Option.some.injEq] at hc
      subst hc
      have hnot := (List.nodup_cons.mp hnodup).1
      rcases ahead_cons.mp h with h | ⟨-, hm⟩
      · exact hnot h.mem_right
      · exact hnot hm

section Place

variable [DecidableEq α]

-- In a queue without repetitions nobody gets further from the head.
theorem idxOf_sublist (h : new.Sublist old) (hnodup : old.Nodup) (ha : a ∈ new) :
    new.idxOf a ≤ old.idxOf a := by
  induction h with
  | slnil => cases ha
  | @cons l l' c hl ih =>
      obtain ⟨hc, hnodup⟩ := List.nodup_cons.mp hnodup
      have hne : c ≠ a := fun heq => hc (heq ▸ hl.subset ha)
      rw [List.idxOf_cons_ne l' hne]
      have hle := ih hnodup ha
      omega
  | @cons_cons l l' c hl ih =>
      obtain ⟨-, hnodup⟩ := List.nodup_cons.mp hnodup
      by_cases hc : c = a
      · subst hc
        rw [List.idxOf_cons_self]
        omega
      · rw [List.idxOf_cons_ne l hc, List.idxOf_cons_ne l' hc]
        have hle := ih hnodup ((List.mem_cons.mp ha).resolve_left (Ne.symm hc))
        omega

theorem Advances.idxOf_le (h : Advances old new) (hnodup : old.Nodup) (ha : a ∈ old)
    (ha' : a ∈ new) : new.idxOf a ≤ old.idxOf a := by
  obtain ⟨kept, joined, rfl, hsub, hjoined⟩ := h
  have hkept := (List.mem_append.mp ha').resolve_right fun hj => hjoined a hj ha
  rw [List.idxOf_append_of_mem hkept]
  exact idxOf_sublist hsub hnodup hkept

-- A turn brings everybody behind the head one place forward.
theorem idxOf_rotate (hnodup : old.Nodup) (ha : a ∈ old.tail) :
    (old.rotate 1).idxOf a + 1 = old.idxOf a := by
  cases old with
  | nil => cases ha
  | cons c rest =>
      have hrest : a ∈ rest := ha
      have hc : c ≠ a := fun heq => (List.nodup_cons.mp hnodup).1 (heq ▸ hrest)
      rw [List.rotate_cons_succ, List.rotate_zero, List.idxOf_append_of_mem hrest,
        List.idxOf_cons_ne rest hc]

theorem idxOf_tail (ha : a ∈ old) (hne : old.head? ≠ some a) :
    old.tail.idxOf a + 1 = old.idxOf a := by
  cases old with
  | nil => cases ha
  | cons c rest =>
      have hc : c ≠ a := fun heq => hne (congrArg some heq)
      rw [List.idxOf_cons_ne rest hc]
      rfl

end Place

end Fifo
