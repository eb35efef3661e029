import Mathlib

namespace Forest

variable {α : Type*}

-- A forest given by parents and by lists of children. The path of a node leads
-- from it to its root.
structure Family (live : α → Prop) (parent : α → Option α) (children : α → List α)
    (path : α → List α) : Prop where
  child : ∀ a c, c ∈ children a ↔ parent c = some a
  nodup : ∀ a, (children a).Nodup
  parent_live : ∀ a c, parent c = some a → live a ∧ live c
  path_nodup : ∀ p, live p → (path p).Nodup
  path_live : ∀ p, live p → ∀ a ∈ path p, live a
  path_eq : ∀ p, live p → path p = p :: (parent p).elim [] path

-- A node and its progeny, every node after its own progeny.
def progeny (children : α → List α) : ℕ → α → List α
  | 0, _ => []
  | depth + 1, p => (children p).flatMap (progeny children depth) ++ [p]

-- The recursion along the children ends within the given depth.
def Within (children : α → List α) : ℕ → α → Prop
  | 0, _ => False
  | depth + 1, p => ∀ c ∈ children p, Within children depth c

variable {live : α → Prop} {parent : α → Option α} {children : α → List α} {path : α → List α}

namespace Family

theorem self_mem_path (h : Family live parent children path) {p : α} (hp : live p) :
    p ∈ path p := by
  rw [h.path_eq p hp]
  simp

theorem path_child (h : Family live parent children path) {a c : α} (hc : c ∈ children a) :
    path c = c :: path a := by
  have hp := (h.child a c).mp hc
  rw [h.path_eq c (h.parent_live a c hp).2, hp]
  rfl

-- The path of a node on a path is the rest of that path.
theorem path_suffix (h : Family live parent children path) {n : ℕ} {x a : α} (hx : live x)
    (ha : a ∈ path x) (hn : (path x).length ≤ n) : ∃ front, path x = front ++ path a := by
  induction n generalizing x with
  | zero =>
      rw [List.length_eq_zero_iff.mp (Nat.le_zero.mp hn)] at ha
      simp at ha
  | succ n ih =>
      have he := h.path_eq x hx
      rw [he] at ha hn
      rcases List.mem_cons.mp ha with rfl | ha
      · exact ⟨[], rfl⟩
      · cases hp : parent x with
        | none => simp [hp] at ha
        | some b =>
            rw [hp] at he ha hn
            obtain ⟨front, hf⟩ := ih (h.parent_live b x hp).1 ha (by simpa using hn)
            refine ⟨x :: front, he.trans ?_⟩
            simp only [Option.elim_some, List.cons_append, hf]

theorem path_trans (h : Family live parent children path) {x a b : α} (hx : live x)
    (ha : a ∈ path x) (hb : b ∈ path a) : b ∈ path x := by
  obtain ⟨front, hf⟩ := h.path_suffix hx ha le_rfl
  rw [hf]
  exact List.mem_append_right _ hb

-- Two siblings are not on one path.
theorem sibling_eq (h : Family live parent children path) {x a c c' : α} (hx : live x)
    (hc : c ∈ children a) (hc' : c' ∈ children a) (hm : c ∈ path x) (hm' : c' ∈ path x) :
    c = c' := by
  obtain ⟨front, hf⟩ := h.path_suffix hx hm le_rfl
  obtain ⟨front', hf'⟩ := h.path_suffix hx hm' le_rfl
  rw [h.path_child hc] at hf
  rw [h.path_child hc', hf] at hf'
  have hlen : front.length = front'.length := by
    have hl := congrArg List.length hf'
    simp only [List.length_append, List.length_cons] at hl
    omega
  exact (List.cons.inj (List.append_inj hf' hlen).2).1

theorem not_mem_path_parent (h : Family live parent children path) {a c : α}
    (hc : c ∈ children a) : c ∉ path a := by
  have hn := h.path_nodup c (h.parent_live a c ((h.child a c).mp hc)).2
  rw [h.path_child hc, List.nodup_cons] at hn
  exact hn.1

-- The path of a node is its line of ancestors.
theorem mem_path_iff (h : Family live parent children path) {p a : α} (hp : live p) :
    a ∈ path p ↔ Relation.ReflTransGen (fun c b => parent c = some b) p a := by
  constructor
  · generalize hl : (path p).length = l
    induction l generalizing p with
    | zero =>
        intro ha
        rw [List.length_eq_zero_iff.mp hl] at ha
        simp at ha
    | succ l ih =>
        intro ha
        have he := h.path_eq p hp
        rw [he] at ha hl
        rcases List.mem_cons.mp ha with rfl | ha
        · exact .refl
        · cases hpp : parent p with
          | none => simp [hpp] at ha
          | some b =>
              rw [hpp] at ha hl
              exact .head hpp (ih (h.parent_live b p hpp).1 (by simpa using hl) ha)
  · intro hr
    induction hr using Relation.ReflTransGen.head_induction_on with
    | refl => exact h.self_mem_path hp
    | @head x y hxy _ ih =>
        rw [h.path_child ((h.child y x).mpr hxy)]
        exact List.mem_cons_of_mem _ (ih (h.parent_live y x hxy).1)

theorem exists_root (h : Family live parent children path) {p : α} (hp : live p) :
    ∃ r ∈ path p, parent r = none := by
  generalize hl : (path p).length = l
  induction l generalizing p with
  | zero =>
      have hm := h.self_mem_path hp
      rw [List.length_eq_zero_iff.mp hl] at hm
      simp at hm
  | succ l ih =>
      have he := h.path_eq p hp
      cases hpp : parent p with
      | none => exact ⟨p, h.self_mem_path hp, hpp⟩
      | some b =>
          rw [he, hpp] at hl
          obtain ⟨r, hr, hnone⟩ := ih (h.parent_live b p hpp).1 (by simpa using hl)
          refine ⟨r, ?_, hnone⟩
          rw [he, hpp]
          exact List.mem_cons_of_mem _ hr

section Progeny

variable {N n : ℕ} {p : α}

theorem within (h : Family live parent children path) (hp : live p)
    (hbound : ∀ x, live x → (path x).length ≤ N) (hn : N < n + (path p).length) :
    Within children n p := by
  induction n generalizing p with
  | zero =>
      have hb := hbound p hp
      omega
  | succ n ih =>
      intro c hc
      have hl := (h.parent_live p c ((h.child p c).mp hc)).2
      refine ih hl ?_
      rw [h.path_child hc, List.length_cons]
      omega

theorem mem_path_of_progeny (h : Family live parent children path) (hp : live p) {x : α}
    (hx : x ∈ progeny children n p) : live x ∧ p ∈ path x := by
  induction n generalizing p with
  | zero => simp [progeny] at hx
  | succ n ih =>
      rcases List.mem_append.mp hx with hx | hx
      · obtain ⟨c, hc, hxc⟩ := List.mem_flatMap.mp hx
        have hl := h.parent_live p c ((h.child p c).mp hc)
        obtain ⟨hx, hm⟩ := ih hl.2 hxc
        refine ⟨hx, h.path_trans hx hm ?_⟩
        rw [h.path_child hc]
        exact List.mem_cons_of_mem _ (h.self_mem_path hp)
      · rw [List.mem_singleton] at hx
        subst hx
        exact ⟨hp, h.self_mem_path hp⟩

theorem self_mem_progeny (hw : Within children n p) : p ∈ progeny children n p := by
  cases n with
  | zero => exact hw.elim
  | succ n => simp [progeny]

theorem child_mem_progeny {x c : α} (hw : Within children n p)
    (hx : x ∈ progeny children n p) (hc : c ∈ children x) : c ∈ progeny children n p := by
  induction n generalizing p with
  | zero => exact hw.elim
  | succ n ih =>
      rw [progeny, List.mem_append] at hx ⊢
      left
      rcases hx with hx | hx
      · obtain ⟨d, hd, hxd⟩ := List.mem_flatMap.mp hx
        exact List.mem_flatMap.mpr ⟨d, hd, ih (hw d hd) hxd⟩
      · rw [List.mem_singleton] at hx
        subst hx
        exact List.mem_flatMap.mpr ⟨c, hc, self_mem_progeny (hw c hc)⟩

theorem mem_progeny_iff (h : Family live parent children path) (hp : live p)
    (hw : Within children n p) {x : α} :
    x ∈ progeny children n p ↔ live x ∧ p ∈ path x := by
  refine ⟨h.mem_path_of_progeny hp, ?_⟩
  rintro ⟨hx, hm⟩
  generalize hl : (path x).length = l
  induction l generalizing x with
  | zero =>
      rw [List.length_eq_zero_iff.mp hl] at hm
      simp at hm
  | succ l ih =>
      have he := h.path_eq x hx
      rw [he] at hm
      rcases List.mem_cons.mp hm with rfl | hm
      · exact self_mem_progeny hw
      · cases hpx : parent x with
        | none => simp [hpx] at hm
        | some a =>
            rw [hpx] at he hm
            rw [he] at hl
            have hxa := (h.child a x).mpr hpx
            exact child_mem_progeny hw
              (ih (h.parent_live a x hpx).1 hm (by simpa using hl)) hxa

theorem progeny_nodup (h : Family live parent children path) (hp : live p) :
    (progeny children n p).Nodup := by
  induction n generalizing p with
  | zero => simp [progeny]
  | succ n ih =>
      have hchild : ∀ c ∈ children p, live c := fun c hc =>
        (h.parent_live p c ((h.child p c).mp hc)).2
      rw [progeny, List.nodup_append]
      refine ⟨?_, by simp, ?_⟩
      · rw [List.nodup_flatMap]
        refine ⟨fun c hc => ih (hchild c hc), (h.nodup p).imp_of_mem ?_⟩
        intro c c' hc hc' hne x hx hx'
        have hm := h.mem_path_of_progeny (hchild c hc) hx
        have hm' := h.mem_path_of_progeny (hchild c' hc') hx'
        exact hne (h.sibling_eq hm.1 hc hc' hm.2 hm'.2)
      · intro x hx y hy heq
        obtain ⟨c, hc, hxc⟩ := List.mem_flatMap.mp hx
        rw [List.mem_singleton] at hy
        have hm := (h.mem_path_of_progeny (hchild c hc) hxc).2
        rw [heq, hy] at hm
        exact h.not_mem_path_parent hc hm

end Progeny

section Change

variable [DecidableEq α]

-- A new node without children.
theorem graft (h : Family live parent children path) {a c : α} (ha : live a) (hc : ¬ live c) :
    Family (fun x => live x ∨ x = c) (Function.update parent c (some a))
      (Function.update children a (children a ++ [c])) (Function.update path c (c :: path a)) := by
  have hac : a ≠ c := fun heq => hc (heq ▸ ha)
  have hnone : ∀ x, live x → x ≠ c := fun x hx heq => hc (heq ▸ hx)
  have horphan : ∀ b, c ∉ children b := fun b hb =>
    hc (h.parent_live b c ((h.child b c).mp hb)).2
  have hchildless : ∀ b, parent b ≠ some c := fun b hb => hc (h.parent_live c b hb).1
  refine ⟨?_, ?_, ?_, ?_, ?_, ?_⟩
  · intro b x
    by_cases hx : x = c
    · subst hx
      by_cases hb : b = a
      · subst hb
        simp
      · simp [hb, horphan b, Ne.symm hb]
    · rw [Function.update_of_ne hx, ← h.child]
      by_cases hb : b = a
      · subst hb
        simp [hx]
      · rw [Function.update_of_ne hb]
  · intro b
    by_cases hb : b = a
    · subst hb
      rw [Function.update_self, List.nodup_append]
      refine ⟨h.nodup b, by simp, fun x hx y hy heq => ?_⟩
      rw [List.mem_singleton] at hy
      exact horphan b (hy ▸ heq ▸ hx)
    · rw [Function.update_of_ne hb]
      exact h.nodup b
  · intro b x hx
    by_cases hxc : x = c
    · subst hxc
      rw [Function.update_self, Option.some.injEq] at hx
      exact ⟨Or.inl (hx ▸ ha), Or.inr rfl⟩
    · rw [Function.update_of_ne hxc] at hx
      exact (h.parent_live b x hx).imp Or.inl Or.inl
  · rintro p (hp | rfl)
    · rw [Function.update_of_ne (hnone p hp)]
      exact h.path_nodup p hp
    · rw [Function.update_self, List.nodup_cons]
      exact ⟨fun hm => hc (h.path_live a ha p hm), h.path_nodup a ha⟩
  · rintro p (hp | rfl) b hb
    · rw [Function.update_of_ne (hnone p hp)] at hb
      exact Or.inl (h.path_live p hp b hb)
    · rw [Function.update_self] at hb
      rcases List.mem_cons.mp hb with rfl | hb
      · exact Or.inr rfl
      · exact Or.inl (h.path_live a ha b hb)
  · rintro p (hp | rfl)
    · rw [Function.update_of_ne (hnone p hp), Function.update_of_ne (hnone p hp), h.path_eq p hp]
      cases hpp : parent p with
      | none => rfl
      | some b =>
          have hbc : b ≠ c := fun heq => hchildless p (heq ▸ hpp)
          simp [hbc]
    · simp [hac]

-- A node and its progeny are taken away.
theorem prune (h : Family live parent children path) {p : α} {dead : α → Prop} [DecidablePred dead]
    (hdead : ∀ x, dead x ↔ live x ∧ p ∈ path x) :
    Family (fun x => live x ∧ ¬ dead x) (fun x => if dead x then none else parent x)
      (fun x => if dead x then [] else (children x).erase p) path := by
  have hup : ∀ a c, parent c = some a → dead a → dead c := by
    intro a c hc ha
    have hl := h.parent_live a c hc
    refine (hdead c).mpr ⟨hl.2, ?_⟩
    rw [h.path_child ((h.child a c).mpr hc)]
    exact List.mem_cons_of_mem _ ((hdead a).mp ha).2
  have hdown : ∀ a c, parent c = some a → dead c → dead a ∨ c = p := by
    intro a c hc hd
    have hm := ((hdead c).mp hd).2
    rw [h.path_child ((h.child a c).mpr hc)] at hm
    rcases List.mem_cons.mp hm with rfl | hm
    · exact Or.inr rfl
    · exact Or.inl ((hdead a).mpr ⟨(h.parent_live a c hc).1, hm⟩)
  refine ⟨?_, ?_, ?_, ?_, ?_, ?_⟩
  · intro a c
    by_cases ha : dead a
    · rw [if_pos ha]
      simp only [List.not_mem_nil, false_iff]
      split
      · simp
      · next hc => exact fun heq => hc (hup a c heq ha)
    · rw [if_neg ha, (h.nodup a).mem_erase_iff, h.child]
      constructor
      · rintro ⟨hcp, hc⟩
        rw [if_neg fun hd => (hdown a c hc hd).elim ha hcp]
        exact hc
      · intro hc
        split at hc
        · simp at hc
        · next hd =>
            refine ⟨?_, hc⟩
            rintro rfl
            have hl := (h.parent_live a c hc).2
            exact hd ((hdead c).mpr ⟨hl, h.self_mem_path hl⟩)
  · intro a
    split
    · simp
    · exact (h.nodup a).erase p
  · intro a c hc
    split at hc
    · simp at hc
    · next hd =>
        have hl := h.parent_live a c hc
        exact ⟨⟨hl.1, fun ha => hd (hup a c hc ha)⟩, hl.2, hd⟩
  · exact fun x hx => h.path_nodup x hx.1
  · rintro x ⟨hx, hd⟩ a ha
    refine ⟨h.path_live x hx a ha, fun hda => hd ((hdead x).mpr ⟨hx, ?_⟩)⟩
    exact h.path_trans hx ha ((hdead a).mp hda).2
  · rintro x ⟨hx, hd⟩
    rw [if_neg hd]
    exact h.path_eq x hx

end Change

end Family

end Forest
