import Hoca.Support.Isolation

namespace Hoca.Support

open Semaphores

-- The descriptor that the handler gets a frame for and has not marked as present.
def MmPc.desc : MmPc → Option Desc
  | .user => none
  | .lockFrames d => some d
  | .lockCounter d => some d
  | .readCounter d => some d
  | .bumpCounter d _ => some d
  | .unlockCounter d _ => some d
  | .lockDesc d _ => some d
  | .setFrame d _ => some d
  | .setPresent d _ => some d
  | .unlockDesc _ => none
  | .terminate => none

namespace Memory

variable {l : Linker} {g : Frames} {s s' s₀ s₁ : Memory} {a : MmAction} {as : List MmAction}
  {d : Desc} {i : Term} {pg : Fin 32}

-- No page of segment 2 is missed while the handler gets a frame for it already.
def Alone (s : Memory) : MmAction → Prop
  | .fault _ typ seg pg => ∀ h : pg < 32, typ = PAGEMISS → seg = 2 →
      ∀ j, (s.handler j).desc ≠ some (.shared ⟨pg, h⟩)
  | .handle _ => True

instance (s : Memory) : DecidablePred s.Alone
  | .fault _ _ _ _ => inferInstanceAs (Decidable (∀ _, _))
  | .handle _ => isTrue trivial

-- A page of segment 2 that is present keeps its frame.
def Stable (as : List MmAction) (s₀ : Memory) : Prop :=
  ∀ bs cs s₁ s₂, bs ++ cs <+: as → run bs s₀ = some s₁ → run cs s₁ = some s₂ →
    ∀ pg, (s₁.pd (.shared pg)).pd_p = true →
      (s₂.pd (.shared pg)).pd_p = true ∧
        (s₂.pd (.shared pg)).pd_frame = (s₁.pd (.shared pg)).pd_frame

theorem handle_desc (hs : s.handle i = some s') :
    ∃ pc, s'.handler = Function.update s.handler i pc ∧
      (pc.desc = (s.handler i).desc ∧ (∀ d, (s'.pd d).pd_p = (s.pd d).pd_p) ∨
        ∃ d f, s.handler i = .setPresent d f ∧ pc = .unlockDesc d ∧
          s'.pd = Function.update s.pd d (s.pd d).setPresent) := by
  unfold Memory.handle at hs
  split at hs
  · cases hs
  · next d hpc =>
    cases hs
    exact ⟨_, rfl, Or.inl ⟨(congrArg MmPc.desc hpc).symm, fun _ => rfl⟩⟩
  · next d hpc =>
    cases hs
    exact ⟨_, rfl, Or.inl ⟨(congrArg MmPc.desc hpc).symm, fun _ => rfl⟩⟩
  · next d hpc =>
    cases hs
    exact ⟨_, rfl, Or.inl ⟨(congrArg MmPc.desc hpc).symm, fun _ => rfl⟩⟩
  · next d n hpc =>
    cases hs
    exact ⟨_, rfl, Or.inl ⟨(congrArg MmPc.desc hpc).symm, fun _ => rfl⟩⟩
  · next d f hpc =>
    cases hs
    exact ⟨_, rfl, Or.inl ⟨(congrArg MmPc.desc hpc).symm, fun _ => rfl⟩⟩
  · next d f hpc =>
    cases hs
    exact ⟨_, rfl, Or.inl ⟨(congrArg MmPc.desc hpc).symm, fun _ => rfl⟩⟩
  · next d f hpc =>
    cases hs
    refine ⟨_, rfl, Or.inl ⟨(congrArg MmPc.desc hpc).symm, fun d' => ?_⟩⟩
    by_cases hd : d' = d
    · subst hd
      simp only [Function.update_self, Pd.setFrame]
    · simp only [Function.update_of_ne hd]
  · next d f hpc =>
    cases hs
    exact ⟨_, rfl, Or.inr ⟨d, f, hpc, rfl, rfl⟩⟩
  · next d hpc =>
    cases hs
    exact ⟨_, rfl, Or.inl ⟨(congrArg MmPc.desc hpc).symm, fun _ => rfl⟩⟩
  · cases hs

-- A frame is replaced only where the handler stores one.
theorem step_frame (hs : step a s = some s') (d : Desc) :
    (s'.pd d).pd_frame = (s.pd d).pd_frame ∨
      ∃ i f, a = .handle i ∧ s.handler i = .setFrame d f ∧ s'.pd d = (s.pd d).setFrame f := by
  cases a with
  | fault i typ seg pg =>
      obtain ⟨-, -, rfl⟩ := step_fault hs
      exact Or.inl rfl
  | handle i =>
      obtain ⟨-, -, hs⟩ := step_handle hs
      unfold Memory.handle at hs
      split at hs
      case h_8 d' f hpc =>
        cases hs
        by_cases hd : d = d'
        · subst hd
          exact Or.inr ⟨i, f, rfl, hpc, Function.update_self ..⟩
        · exact Or.inl (congrArg Pd.pd_frame (Function.update_of_ne hd ..))
      case h_9 d' f hpc =>
        cases hs
        by_cases hd : d = d'
        · subst hd
          left
          simp only [Function.update_self, Pd.setPresent]
        · exact Or.inl (congrArg Pd.pd_frame (Function.update_of_ne hd ..))
      all_goals cases hs
      all_goals exact Or.inl rfl

theorem step_present (hs : step a s = some s') (hp : (s.pd d).pd_p = true) :
    (s'.pd d).pd_p = true := by
  cases a with
  | fault i typ seg pg =>
      obtain ⟨-, -, rfl⟩ := step_fault hs
      exact hp
  | handle i =>
      obtain ⟨-, -, hs⟩ := step_handle hs
      obtain ⟨pc, -, ⟨-, hpd⟩ | ⟨d', f, -, -, hpd⟩⟩ := handle_desc hs
      · rw [hpd]
        exact hp
      · rw [hpd]
        by_cases hd : d = d'
        · subst hd
          rw [Function.update_self]
          rfl
        · rw [Function.update_of_ne hd]
          exact hp

-- One handler at a time gets a frame for a page of segment 2, while it is missing.
def Sole (s : Memory) : Prop :=
  ∀ pg i, (s.handler i).desc = some (.shared pg) → (s.pd (.shared pg)).pd_p = false ∧
    ∀ j, (s.handler j).desc = some (.shared pg) → j = i

theorem slmmhandler_shared {typ seg n : ℕ}
    (h : (slmmhandler i typ seg n).desc = some (.shared pg)) :
    ∃ hn : n < 32, typ = PAGEMISS ∧ seg = 2 ∧ pg = ⟨n, hn⟩ := by
  unfold slmmhandler at h
  split at h
  · next htyp =>
    split at h
    · cases h
    · next hseg =>
      split at h
      · next hn =>
        simp only [MmPc.desc, Option.some.injEq] at h
        split at h
        · cases h
        · cases h
          exact ⟨hn, htyp, by omega, rfl⟩
      · cases h
  · cases h

theorem Sole.step (h : s.Sole) (ha : s.Alone a) (hs : Memory.step a s = some s') : s'.Sole := by
  cases a with
  | fault i typ seg n =>
      obtain ⟨-, hmiss, rfl⟩ := step_fault hs
      intro pg k hk
      have hnew : ∀ j, ((s.setHandler i (slmmhandler i typ seg n)).handler j).desc =
          some (.shared pg) → j = i ∧ (slmmhandler i typ seg n).desc = some (.shared pg) ∨
            (s.handler j).desc = some (.shared pg) := by
        intro j hj
        by_cases hji : j = i
        · subst hji
          simp only [setHandler, Function.update_self] at hj
          exact Or.inl ⟨rfl, hj⟩
        · simp only [setHandler, Function.update_of_ne hji] at hj
          exact Or.inr hj
      by_cases hpg : (slmmhandler i typ seg n).desc = some (.shared pg)
      · obtain ⟨hn, htyp, hseg, rfl⟩ := slmmhandler_shared hpg
        have hall : ∀ j, ((s.setHandler i (slmmhandler i typ seg n)).handler j).desc =
            some (.shared ⟨n, hn⟩) → j = i := by
          intro j hj
          rcases hnew j hj with ⟨hji, -⟩ | hold
          · exact hji
          · exact absurd hold (ha hn htyp hseg j)
        refine ⟨(hmiss htyp hn).2 hseg, fun j hj => ?_⟩
        rw [hall j hj, hall k hk]
      · have hold : ∀ j, ((s.setHandler i (slmmhandler i typ seg n)).handler j).desc =
            some (.shared pg) → (s.handler j).desc = some (.shared pg) :=
          fun j hj => (hnew j hj).resolve_left fun hcase => hpg hcase.2
        exact ⟨(h pg k (hold k hk)).1, fun j hj => (h pg k (hold k hk)).2 j (hold j hj)⟩
  | handle i =>
      obtain ⟨-, -, hs⟩ := step_handle hs
      obtain ⟨pc, hhandler, hcase⟩ := handle_desc hs
      have hold : ∀ j pg, (s'.handler j).desc = some (.shared pg) →
          (s.handler j).desc = some (.shared pg) ∧
            (s'.pd (.shared pg)).pd_p = (s.pd (.shared pg)).pd_p := by
        intro j pg hj
        rw [hhandler] at hj
        rcases hcase with ⟨hpc, hpd⟩ | ⟨d, f, hpc, rfl, hpd⟩
        · refine ⟨?_, hpd _⟩
          by_cases hji : j = i
          · subst hji
            rw [Function.update_self] at hj
            exact hpc.symm.trans hj
          · rw [Function.update_of_ne hji] at hj
            exact hj
        · have hji : j ≠ i := by
            rintro rfl
            rw [Function.update_self] at hj
            cases hj
          rw [Function.update_of_ne hji] at hj
          refine ⟨hj, ?_⟩
          rw [hpd]
          by_cases hd : Desc.shared pg = d
          · subst hd
            exact absurd ((h pg j hj).2 i (congrArg MmPc.desc hpc)) hji.symm
          · rw [Function.update_of_ne hd]
      intro pg k hk
      obtain ⟨hk', hp⟩ := hold k pg hk
      obtain ⟨hfalse, hall⟩ := h pg k hk'
      exact ⟨hp.trans hfalse, fun j hj => hall j (hold j pg hj).1⟩

theorem booted_sole (h : Booted l g s₀) : s₀.Sole := by
  intro pg i hi
  rw [h.idle i] at hi
  cases hi

theorem Sole.run (h : s.Sole) (ha : Runs.Along Memory.step Alone as s)
    (hrun : Memory.run as s = some s') :
    s'.Sole :=
  Runs.run_invariant (fun _ _ _ h ha hs => h.step ha hs) h ha hrun

-- A page that is present keeps its frame over the next step.
theorem Sole.keeps (h : s.Sole) (hs : Memory.step a s = some s')
    (hp : (s.pd (.shared pg)).pd_p = true) :
    (s'.pd (.shared pg)).pd_frame = (s.pd (.shared pg)).pd_frame := by
  rcases step_frame hs (.shared pg) with hf | ⟨i, f, rfl, hpc, -⟩
  · exact hf
  · have hmissing := (h pg i (congrArg MmPc.desc hpc)).1
    rw [hp] at hmissing
    cases hmissing

theorem stable_of_alone (h : s₀.Sole) (ha : Runs.Along step Alone as s₀) : Stable as s₀ := by
  intro bs cs s₁ s₂ hprefix hbs hcs pg hp
  obtain ⟨ds, rfl⟩ := hprefix
  rw [List.append_assoc] at ha
  have hsole := h.run ha.append_left hbs
  have halong := (ha.append_right hbs).append_left
  have hinv := Runs.run_invariant (I := fun s => s.Sole ∧ (s.pd (.shared pg)).pd_p = true ∧
    (s.pd (.shared pg)).pd_frame = (s₁.pd (.shared pg)).pd_frame)
    (fun s a s' ⟨hs, hp, hf⟩ ha hstep =>
      ⟨hs.step ha hstep, step_present hstep hp, (hs.keeps hstep hp).trans hf⟩)
    ⟨hsole, hp, rfl⟩ halong hcs
  exact hinv.2

-- Two handlers get a frame for one page, or one does for a page that is there.
def Doubled (s : Memory) (pg : Fin 32) : Prop :=
  (∃ i j, i ≠ j ∧ (s.handler i).desc = some (.shared pg) ∧
    (s.handler j).desc = some (.shared pg)) ∨
  (s.pd (.shared pg)).pd_p = true ∧ ∃ i, (s.handler i).desc = some (.shared pg) ∧
    ∀ d f, s.handler i ≠ .setPresent d f

theorem Doubled.desc (h : s.Doubled pg) : ∃ i, (s.handler i).desc = some (.shared pg) := by
  rcases h with ⟨i, -, -, hi, -⟩ | ⟨-, i, hi, -⟩
  · exact ⟨i, hi⟩
  · exact ⟨i, hi⟩

theorem step_handler_of_ne (hs : step a s = some s') (hj : a ≠ .handle i)
    (hi : (s.handler i).desc = some d) : s'.handler i = s.handler i := by
  cases a with
  | fault k typ seg n =>
      obtain ⟨huser, -, rfl⟩ := step_fault hs
      have hik : i ≠ k := by
        rintro rfl
        rw [huser] at hi
        cases hi
      exact Function.update_of_ne hik ..
  | handle k =>
      have hik : i ≠ k := by
        rintro rfl
        exact hj rfl
      obtain ⟨-, -, hs⟩ := step_handle hs
      obtain ⟨pc, hhandler, -⟩ := handle_desc hs
      rw [hhandler, Function.update_of_ne hik]

theorem step_desc (hs : step (.handle i) s = some s') (hi : (s.handler i).desc = some d) :
    (s'.handler i).desc = some d ∨
      (∃ f, s.handler i = .setPresent d f) ∧ (s'.pd d).pd_p = true := by
  obtain ⟨-, -, hs⟩ := step_handle hs
  obtain ⟨pc, hhandler, ⟨hpc, -⟩ | ⟨d', f, hpc, -, hpd⟩⟩ := handle_desc hs
  · left
    rw [hhandler, Function.update_self]
    exact hpc.trans hi
  · right
    rw [hpc] at hi
    cases hi
    refine ⟨⟨f, hpc⟩, ?_⟩
    rw [hpd, Function.update_self]
    rfl

theorem step_setPresent {f : ℕ} (hs : step (.handle i) s = some s')
    (hpc : s'.handler i = .setPresent d f) :
    s.handler i = .setFrame d f ∧ s'.pd d = (s.pd d).setFrame f := by
  obtain ⟨-, -, hs⟩ := step_handle hs
  unfold Memory.handle at hs
  split at hs
  case h_8 d' f' hold =>
    cases hs
    simp only [setHandler, Function.update_self] at hpc
    cases hpc
    exact ⟨hold, Function.update_self ..⟩
  all_goals cases hs
  all_goals
    simp only [setHandler, Function.update_self] at hpc
    cases hpc

-- The frame of a handler is not the one of a present page.
theorem Isolated.setFrame_ne (h : s.Isolated) (hstart : s.pf_start + MAXFRAMES < 2 ^ 15) {f : ℕ}
    (hpc : s.handler i = .setFrame d f) (hp : (s.pd d).pd_p = true) :
    ((s.pd d).setFrame f).pd_frame ≠ (s.pd d).pd_frame := by
  intro heq
  have hown : Owns s.pd s.handler (.handler i) f := by
    show (s.handler i).Holds s.pd f
    rw [hpc]
    rfl
  have hrange := h.range _ f hown
  have hbound := h.bound
  have hmod : f % 2 ^ 15 = f := Nat.mod_eq_of_lt (by omega)
  have hframe : (s.pd d).pd_frame = f := heq.symm.trans hmod
  cases h.unique (.handler i) (.desc d) f hown ⟨hp, hframe⟩

-- While the pages keep their frames, one of the handlers is always left.
theorem Doubled.step (h : s.Doubled pg) (hiso : s.Isolated)
    (hstart : s.pf_start + MAXFRAMES < 2 ^ 15) (hs : Memory.step a s = some s')
    (hkeep : (s.pd (.shared pg)).pd_p = true →
      (s'.pd (.shared pg)).pd_frame = (s.pd (.shared pg)).pd_frame) : s'.Doubled pg := by
  rcases h with ⟨i, j, hij, hi, hj⟩ | ⟨hp, i, hi, hearly⟩
  · have hpair : ∀ i j, i ≠ j → (s.handler i).desc = some (.shared pg) →
        (s.handler j).desc = some (.shared pg) → a = .handle i → s'.Doubled pg := by
      rintro i j hij hi hj rfl
      have hother := step_handler_of_ne hs (fun heq => hij (MmAction.handle.inj heq)) hj
      have hj' : (s'.handler j).desc = some (.shared pg) := by
        rw [hother]
        exact hj
      rcases step_desc hs hi with hi' | ⟨⟨f, hpc⟩, hp⟩
      · exact Or.inl ⟨i, j, hij, hi', hj'⟩
      · refine Or.inr ⟨hp, j, hj', ?_⟩
        rw [hother]
        apply Support.Isolated.not_setPresent hiso _ (step_handle hs).2.1 hij.symm
        rw [hpc]
        trivial
    by_cases hai : a = .handle i
    · exact hpair i j hij hi hj hai
    · by_cases haj : a = .handle j
      · exact hpair j i hij.symm hj hi haj
      · left
        refine ⟨i, j, hij, ?_, ?_⟩
        · rw [step_handler_of_ne hs hai hi]
          exact hi
        · rw [step_handler_of_ne hs haj hj]
          exact hj
  · right
    refine ⟨step_present hs hp, i, ?_⟩
    by_cases hai : a = .handle i
    · subst hai
      refine ⟨(step_desc hs hi).resolve_right ?_, ?_⟩
      · rintro ⟨⟨f, hpc⟩, -⟩
        exact hearly _ f hpc
      · intro d f hpc'
        obtain ⟨hpc, hpd⟩ := step_setPresent hs hpc'
        rw [hpc] at hi
        cases hi
        apply hiso.setFrame_ne hstart hpc hp
        rw [← hpd]
        exact hkeep hp
    · rw [step_handler_of_ne hs hai hi]
      exact ⟨hi, hearly⟩

theorem Stable.head (h : Stable (a :: as) s) (hs : Memory.step a s = some s')
    (hp : (s.pd (.shared pg)).pd_p = true) :
    (s'.pd (.shared pg)).pd_frame = (s.pd (.shared pg)).pd_frame := by
  have hrun : run [a] s = some s' := by
    show (Memory.step a s).bind _ = _
    rw [hs]
    rfl
  exact (h [] [a] s s' (by simp) rfl hrun pg hp).2

theorem Stable.tail (h : Stable (a :: as) s) (hs : Memory.step a s = some s') : Stable as s' := by
  intro bs cs s₁ s₂ hprefix hbs
  apply h (a :: bs) cs s₁ s₂
  · exact List.cons_prefix_cons.mpr ⟨rfl, hprefix⟩
  · show (Memory.step a s).bind _ = _
    rw [hs]
    exact hbs

theorem Doubled.run (h : s.Doubled pg) (hg : pageinit l = some g) (hrunning : Running l g s)
    (hstable : Stable as s) (hrun : Memory.run as s = some s') : s'.Doubled pg := by
  induction as generalizing s with
  | nil =>
      cases hrun
      exact h
  | cons a as ih =>
      obtain ⟨s₁, hs, hrun⟩ := Option.bind_eq_some_iff.mp hrun
      have hnext := h.step hrunning.isolated (hrunning.below hg) hs fun hp => hstable.head hs hp
      exact ih hnext (hrunning.step hg hs) (hstable.tail hs) hrun

theorem doubled_of_not_alone (ha : ¬ s.Alone a) (hs : Memory.step a s = some s') :
    ∃ pg, s'.Doubled pg := by
  cases a with
  | handle i => exact absurd trivial ha
  | fault i typ seg n =>
      obtain ⟨huser, -, rfl⟩ := step_fault hs
      simp only [Alone, not_forall, not_not] at ha
      obtain ⟨hn, rfl, rfl, j, hj⟩ := ha
      have hij : j ≠ i := by
        rintro rfl
        rw [huser] at hj
        cases hj
      refine ⟨⟨n, hn⟩, Or.inl ⟨i, j, hij.symm, ?_, ?_⟩⟩
      · simp only [setHandler, Function.update_self, slmmhandler, dif_pos hn]
        rfl
      · simp only [setHandler, Function.update_of_ne hij]
        exact hj

theorem alone_of_stable (hg : pageinit l = some g) (hrunning : Running l g s)
    (hstable : Stable as s) (hrun : run as s = some s')
    (hdone : ∀ i pg, (s'.handler i).desc ≠ some (.shared pg)) :
    Runs.Along step Alone as s := by
  induction as generalizing s with
  | nil => trivial
  | cons a as ih =>
      obtain ⟨s₁, hs, hrun⟩ := Option.bind_eq_some_iff.mp hrun
      have hnext := hrunning.step hg hs
      constructor
      · by_contra ha
        obtain ⟨pg, hdoubled⟩ := doubled_of_not_alone ha hs
        obtain ⟨i, hi⟩ := (hdoubled.run hg hnext (hstable.tail hs) hrun).desc
        exact hdone i pg hi
      · intro s₂ hs₂
        cases hs.symm.trans hs₂
        exact ih hnext (hstable.tail hs) hrun

-- The pages of segment 2 keep their frames where no page is missed while its first
-- frame is on the way, and in a run whose handlers have ended nowhere else.
theorem run_stable (hboot : p1 l = some s₀) (h : run as s₀ = some s) :
    (Runs.Along step Alone as s₀ → Stable as s₀) ∧
      ((∀ i pg, (s.handler i).desc ≠ some (.shared pg)) → Stable as s₀ →
        Runs.Along step Alone as s₀) := by
  obtain ⟨g, hg, hbooted⟩ := p1_booted hboot
  constructor
  · exact stable_of_alone (booted_sole hbooted)
  · intro hdone hstable
    exact alone_of_stable hg hbooted.running hstable h hdone

-- A shared page that a second T-process finds present, and another one that it misses.
def share : List MmAction :=
  .fault 0 PAGEMISS 2 5 :: List.replicate 9 (.handle 0) ++
    .fault 1 PAGEMISS 2 6 :: List.replicate 9 (.handle 1)

theorem run_stable_sample : ∃ s₀ s, p1 small = some s₀ ∧ run share s₀ = some s ∧ Stable share s₀ := by
  have halong : ∃ s₀ ∈ p1 small, (run share s₀).isSome = true ∧ Runs.Along step Alone share s₀ := by
    decide +kernel
  obtain ⟨s₀, hboot, hsome, halong⟩ := halong
  obtain ⟨s, hs⟩ := Option.isSome_iff_exists.mp hsome
  exact ⟨s₀, s, hboot, hs, (run_stable hboot hs).1 halong⟩

-- Both T-processes miss the page before one of them has its frame.
def collide : List MmAction :=
  .fault 0 PAGEMISS 2 5 :: .fault 1 PAGEMISS 2 5 :: List.replicate 9 (.handle 0)

theorem shared_frame_replaced :
    ∃ s₀ ∈ p1 small, ∃ s₁ ∈ run collide s₀, ∃ s₂ ∈ run (List.replicate 9 (.handle 1)) s₁,
      (s₁.pd (.shared 5)).pd_p = true ∧
        (s₂.pd (.shared 5)).pd_frame ≠ (s₁.pd (.shared 5)).pd_frame := by
  decide +kernel

end Memory

end Hoca.Support
