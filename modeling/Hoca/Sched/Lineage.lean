import Hoca.Sched.Vector

namespace Hoca

open Forest

namespace Sched

variable {L : Layout} {fork : Prop} {V : Sched → ProcId → List Vpop → Prop} {v v' : Sched}
  {p : ProcId} {e : Event} {stamp : ProcId → ℕ} {n : ℕ}

section Frame

-- Only a birth and a death change the tree.
theorem tree_move (hm : Move L fork V v v') :
    (v'.free = v.free ∧ v'.parent = v.parent ∧ v'.children = v.children) ∨
      (∃ p c rest, fork ∧ v.running = some p ∧ v.free = c :: rest ∧
        v' = (v.newborn p c rest).insertReady c) ∨
      ∃ p, v.running = some p ∧ v' = v.remains p := by
  cases hm with
  | quiet _ hfree hparent hchildren _ => exact Or.inl ⟨hfree, hparent, hchildren⟩
  | create hfork hr hfree => exact Or.inr (Or.inl ⟨_, _, _, hfork, hr, hfree, rfl⟩)
  | kill hr => exact Or.inr (Or.inr ⟨_, hr, rfl⟩)
  | @vector p ops _ _ =>
      left
      obtain ⟨q, sem, context, hframe⟩ := v.frame_vectored p ops
      rw [hframe]
      exact ⟨rfl, rfl, rfl⟩
  | block _ _ _ => exact Or.inl ⟨rfl, rfl, rfl⟩
  | take _ => exact Or.inl ⟨rfl, rfl, rfl⟩
  | @signal s _ _ =>
      obtain ⟨q, hq⟩ := (v.setSem s (toLong (v.sem s + 1))).frame_wake s
      rw [hq]
      exact Or.inl ⟨rfl, rfl, rfl⟩
  | post _ => exact Or.inl ⟨rfl, rfl, rfl⟩
  | requeue _ => exact Or.inl ⟨rfl, rfl, rfl⟩

end Frame

-- One process at most has no parent.
def OneRoot (v : Sched) : Prop :=
  ∀ p ∉ v.free, ∀ q ∉ v.free, v.parent p = none → v.parent q = none → p = q

theorem OneRoot.move (h : v.OneRoot) (hm : Move L fork V v v') : v'.OneRoot := by
  rcases tree_move hm with ⟨hfree, hparent, -⟩ | ⟨p, c, rest, -, -, hfree, rfl⟩ | ⟨p, -, rfl⟩
  · unfold OneRoot
    rw [hfree, hparent]
    exact h
  · have hother : ∀ x, ((v.newborn p c rest).insertReady c).parent x = none →
        x ≠ c ∧ v.parent x = none := by
      intro x hx
      simp only [insertReady, newborn] at hx
      by_cases hxc : x = c
      · rw [hxc, Function.update_self] at hx
        cases hx
      · rw [Function.update_of_ne hxc] at hx
        exact ⟨hxc, hx⟩
    have hlive : ∀ x, x ∉ rest → x ≠ c → x ∉ v.free := by
      intro x hx hxc
      rw [hfree, List.mem_cons, not_or]
      exact ⟨hxc, hx⟩
    intro x hx y hy hxn hyn
    exact h x (hlive x hx (hother x hxn).1) y (hlive y hy (hother y hyn).1) (hother x hxn).2
      (hother y hyn).2
  · intro x hx y hy hxn hyn
    rw [free_remains, List.mem_append, not_or] at hx hy
    rw [parent_remains, if_neg hx.2] at hxn
    rw [parent_remains, if_neg hy.2] at hyn
    exact h x hx.1 y hy.1 hxn hyn

-- The children of a process stand in the order of their births.
structure Aged (stamp : ProcId → ℕ) (n : ℕ) (v : Sched) : Prop where
  order : ∀ a, (v.children a).Pairwise fun c d => stamp c < stamp d
  bound : ∀ a, ∀ c ∈ v.children a, stamp c < n

theorem Aged.thin (h : v.Aged stamp n) (hsub : ∀ a, (v'.children a).Sublist (v.children a)) :
    v'.Aged stamp n :=
  ⟨fun a => (h.order a).sublist (hsub a), fun a c hc => h.bound a c ((hsub a).subset hc)⟩

theorem children_remains (v : Sched) (p a : ProcId) : (v.remains p).children a =
    if a ∈ progeny v.children MAXPROC p then [] else (v.unlinkChild p).children a := by
  rw [remains, children_killAll]
  rfl

theorem children_unlink_sublist (v : Sched) (p a : ProcId) :
    ((v.unlinkChild p).children a).Sublist (v.children a) := by
  unfold unlinkChild
  split
  · exact List.Sublist.refl _
  · next b _ =>
    by_cases hab : a = b
    · subst hab
      simpa using List.erase_sublist
    · simp [hab]

theorem Aged.move (h : v.Aged stamp n) (hm : Move L False V v v') : v'.Aged stamp n := by
  refine h.thin fun a => ?_
  rcases tree_move hm with ⟨-, -, hchildren⟩ | ⟨_, _, _, hfork, -⟩ | ⟨p, -, rfl⟩
  · rw [hchildren]
  · exact hfork.elim
  · rw [children_remains]
    split
    · exact List.nil_sublist _
    · exact v.children_unlink_sublist p a

-- The child of a SYS1 comes from the head of the free list and is the last of
-- its parent's.
theorem step_createproc (hr : v.running = some p) (hcall : e.call = some 1) :
    (v.free = [] ∧ (v.step L e).free = v.free ∧ (v.step L e).children = v.children) ∨
      ∃ c rest, v.free = c :: rest ∧ (v.step L e).free = rest ∧
        (v.step L e).children = Function.update v.children p (v.children p ++ [c]) := by
  have hsame := same_step_createproc (L := L) hr hcall
  rw [hsame.free, hsame.children]
  by_cases hfree : v.free = []
  · rw [(v.enter e p).createproc_full hfree]
    exact Or.inl ⟨hfree, rfl, rfl⟩
  · obtain ⟨c, rest, hfree⟩ := List.exists_cons_of_ne_nil hfree
    rw [(v.enter e p).createproc_cons hfree]
    exact Or.inr ⟨c, rest, hfree, rfl, rfl⟩

-- Who was free before and is not afterwards is given the number of the entry.
def stamped (v v' : Sched) (n : ℕ) (stamp : ProcId → ℕ) (c : ProcId) : ℕ :=
  if c ∈ v.free ∧ c ∉ v'.free then n else stamp c

theorem free_move (hm : Move L False V v v') : v.free ⊆ v'.free := by
  rcases tree_move hm with ⟨hfree, -⟩ | ⟨_, _, _, hfork, -⟩ | ⟨p, -, rfl⟩
  · rw [hfree]
    exact List.Subset.refl _
  · exact hfork.elim
  · rw [free_remains]
    exact List.subset_append_left _ _

theorem Aged.birth (h : v.Aged stamp n) {c : ProcId} (hc : ∀ a, c ∉ v.children a)
    (hchildren : v'.children = Function.update v.children p (v.children p ++ [c])) :
    v'.Aged (Function.update stamp c n) (n + 1) := by
  have hstamp : ∀ a, ∀ d ∈ v.children a, Function.update stamp c n d = stamp d := by
    intro a d hd
    have hdc : d ≠ c := by
      rintro rfl
      exact hc a hd
    exact Function.update_of_ne hdc ..
  have hold : ∀ a, (v.children a).Pairwise fun d d' =>
      Function.update stamp c n d < Function.update stamp c n d' := by
    intro a
    refine (h.order a).imp_of_mem fun hd hd' hlt => ?_
    rw [hstamp a _ hd, hstamp a _ hd']
    exact hlt
  have hbound : ∀ a, ∀ d ∈ v.children a, Function.update stamp c n d < n := by
    intro a d hd
    rw [hstamp a d hd]
    exact h.bound a d hd
  refine ⟨fun a => ?_, fun a d hd => ?_⟩
  · rw [hchildren]
    by_cases hap : a = p
    · subst hap
      rw [Function.update_self, List.pairwise_append]
      refine ⟨hold a, by simp, fun d hd d' hd' => ?_⟩
      rw [List.mem_singleton] at hd'
      rw [hd', Function.update_self]
      exact hbound a d hd
    · rw [Function.update_of_ne hap]
      exact hold a
  · rw [hchildren] at hd
    by_cases hap : a = p
    · subst hap
      rw [Function.update_self, List.mem_append, List.mem_singleton] at hd
      rcases hd with hd | rfl
      · exact (hbound a d hd).trans (Nat.lt_succ_self n)
      · rw [Function.update_self]
        exact Nat.lt_succ_self n
    · rw [Function.update_of_ne hap] at hd
      exact (hbound a d hd).trans (Nat.lt_succ_self n)

theorem Aged.later (h : v.Aged stamp n) : v.Aged stamp (n + 1) :=
  ⟨h.order, fun a c hc => (h.bound a c hc).trans (Nat.lt_succ_self n)⟩

theorem stamped_of_subset (h : v.free ⊆ v'.free) : v.stamped v' n stamp = stamp := by
  funext c
  exact if_neg fun hc => hc.2 (h hc.1)

theorem stamped_cons {c : ProcId} {rest : List ProcId} (hfree : v.free = c :: rest)
    (hfree' : v'.free = rest) (hnodup : v.free.Nodup) :
    v.stamped v' n stamp = Function.update stamp c n := by
  rw [hfree, List.nodup_cons] at hnodup
  funext x
  rw [stamped, hfree, hfree']
  by_cases hx : x = c
  · subst hx
    rw [Function.update_self, if_pos ⟨List.mem_cons_self, hnodup.1⟩]
  · rw [Function.update_of_ne hx, if_neg]
    rintro ⟨hm, hn⟩
    exact hn ((List.mem_cons.mp hm).resolve_left hx)

-- Every entry keeps the children in the order of their births.
theorem Aged.step (h : v.Aged stamp n) (hw : v.Wf L) (hap : Apart L e)
    (hex : v.Expects e) : (v.step L e).Aged (v.stamped (v.step L e) n stamp) (n + 1) := by
  by_cases hcall : e.call = some 1
  · obtain ⟨p, hr⟩ := hex.running (Or.inl (call_some hcall).1)
    rcases step_createproc (L := L) hr hcall with ⟨-, hfree', hchildren⟩ |
      ⟨c, rest, hfree, hfree', hchildren⟩
    · rw [stamped_of_subset (by rw [hfree']; exact List.Subset.refl _)]
      exact h.later.thin fun a => by rw [hchildren]
    · rw [stamped_cons hfree hfree' hw.spare]
      refine h.birth (fun a hc => ?_) hchildren
      obtain ⟨path, hfam⟩ := hw.rooted
      exact (hfam.parent_live a c ((hfam.child a c).mp hc)).2 (hfree ▸ List.mem_cons_self)
  · have hm : Moves L False (fun _ _ ops => Separate L ops) v (v.step L e) :=
      moves_step hw.pclock hcall fun _ _ hc => ⟨hap.reserved hc, hap.distinct hc⟩
    have hfree : v.free ⊆ (v.step L e).free :=
      hm.invariant (I := fun v' => v.free ⊆ v'.free) (fun _ _ _ hv => hv)
        (fun _ _ _ hi hm => fun _ hx => free_move hm (hi hx)) hw.toStable (List.Subset.refl _)
    rw [stamped_of_subset hfree]
    exact hm.invariant (I := fun v' => v'.Aged stamp (n + 1)) (fun _ _ _ hv => hv)
      (fun _ _ _ hi hm => hi.move hm) hw.toStable h.later

theorem OneRoot.step (h : v.OneRoot) (hw : v.Wf L) (hap : Apart L e) : (v.step L e).OneRoot := by
  have hm : Moves L True (fun _ _ ops => Separate L ops) v (v.step L e) :=
    moves_step hw.pclock (fun _ => trivial) fun _ _ hc => ⟨hap.reserved hc, hap.distinct hc⟩
  exact hm.invariant (fun _ _ _ hv => hv) (fun _ _ _ hi hm => hi.move hm) hw.toStable h

-- What killproc makes of the tree depends on the tree only.
theorem tree_killproc {u : Sched} (hfree : u.free = v.free) (hparent : u.parent = v.parent)
    (hchildren : u.children = v.children) (currentTime : Int) (p : ProcId) :
    (u.killproc L currentTime p).free = (v.remains p).free ∧
      (u.killproc L currentTime p).parent = (v.remains p).parent ∧
      (u.killproc L currentTime p).children = (v.remains p).children := by
  have hunlink : (u.unlinkChild p).children = (v.unlinkChild p).children := by
    unfold unlinkChild
    rw [hparent]
    split
    · exact hchildren
    · rw [hchildren]
  refine ⟨(schedule_free ..).trans ?_, (schedule_parent ..).trans (funext fun x => ?_),
    (schedule_children ..).trans (funext fun x => ?_)⟩
  · exact (u.free_remains p).trans (by rw [free_remains, hfree, hchildren])
  · exact (u.parent_remains p x).trans (by rw [parent_remains, hparent, hchildren])
  · exact (u.children_remains p x).trans (by rw [children_remains, hunlink, hchildren])

theorem answers_of_call {n : ℕ} (h : e.call = some n) : v.Answers L e := by
  intro d hd
  obtain ⟨type, reg, hkind⟩ := device_kind hd
  rw [(call_some h).1] at hkind
  cases hkind

-- SYS2 comes to killproc.
theorem step_killproc (hr : v.running = some p) (hcall : e.call = some 2) :
    v.step L e = (v.enter e p).killproc L e.tOut p := by
  have hcallee : (v.enter e p).call L e p = .gone ((v.enter e p).killproc L e.tOut p) := by
    unfold Sched.call
    rw [(call_some hcall).2.2]
    rfl
  rw [step_call hr hcall, hcallee]
  rfl

end Sched

end Hoca
