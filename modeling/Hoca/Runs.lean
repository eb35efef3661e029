import Mathlib

namespace Hoca.Runs

variable {σ α γ : Type} (step : α → σ → Option σ)

-- The state after a sequence of steps, each of which has a result.
def run : List α → σ → Option σ
  | [], s => some s
  | a :: rest, s => (step a s).bind (run rest)

-- A condition on every step of a run and the state it starts from.
def Along (P : σ → α → Prop) : List α → σ → Prop
  | [], _ => True
  | a :: rest, s => P s a ∧ ∀ s', step a s = some s' → Along P rest s'

-- A monitor takes notes on every step, from the state before to the state after,
-- without taking part in the run.
def watched (note : σ → α → σ → γ → γ) (a : α) (s : σ × γ) : Option (σ × γ) :=
  (step a s.1).map fun s' => (s', note s.1 a s' s.2)

variable {step} {P Q : σ → α → Prop} {I : σ → Prop} {s s' : σ} {as bs : List α}

instance decidableAlong [∀ s a, Decidable (P s a)] : ∀ as s, Decidable (Along step P as s)
  | [], _ => isTrue trivial
  | a :: as, s =>
      match hs : step a s with
      | none => decidable_of_iff (P s a)
          ⟨fun h => ⟨h, fun _ h' => absurd (hs.symm.trans h') nofun⟩, And.left⟩
      | some s' =>
          have := decidableAlong as s'
          decidable_of_iff (P s a ∧ Along step P as s')
            ⟨fun h => ⟨h.1, fun _ h' => Option.some.inj (hs.symm.trans h') ▸ h.2⟩,
              fun h => ⟨h.1, h.2 s' hs⟩⟩

theorem run_append (as bs : List α) (s : σ) :
    run step (as ++ bs) s = (run step as s).bind (run step bs) := by
  induction as generalizing s with
  | nil => rfl
  | cons a as ih =>
      simp only [List.cons_append, run, Option.bind_assoc]
      exact congrArg _ (funext ih)

theorem Along.and (h : Along step P as s) (h' : Along step Q as s) :
    Along step (fun s a => P s a ∧ Q s a) as s := by
  induction as generalizing s with
  | nil => trivial
  | cons a as ih => exact ⟨⟨h.1, h'.1⟩, fun s' hs => ih (h.2 s' hs) (h'.2 s' hs)⟩

theorem Along.append_left (h : Along step P (as ++ bs) s) : Along step P as s := by
  induction as generalizing s with
  | nil => trivial
  | cons a as ih => exact ⟨h.1, fun s' hs => ih (h.2 s' hs)⟩

theorem Along.append_right (h : Along step P (as ++ bs) s) (hrun : run step as s = some s') :
    Along step P bs s' := by
  induction as generalizing s with
  | nil =>
      cases hrun
      exact h
  | cons a as ih =>
      obtain ⟨s₁, hs, hrun⟩ := Option.bind_eq_some_iff.mp hrun
      exact ih (h.2 s₁ hs) hrun

theorem Along.append (h : Along step P as s)
    (h' : ∀ s', run step as s = some s' → Along step P bs s') : Along step P (as ++ bs) s := by
  induction as generalizing s with
  | nil => exact h' s rfl
  | cons a as ih =>
      refine ⟨h.1, fun s₁ hs => ih (h.2 s₁ hs) fun s' hrun => h' s' ?_⟩
      rw [run, hs]
      exact hrun

theorem along_of_forall (h : ∀ a ∈ as, ∀ s, P s a) (s : σ) : Along step P as s := by
  induction as generalizing s with
  | nil => trivial
  | cons a as ih =>
      exact ⟨h a (by simp) s, fun s' _ => ih (fun b hb => h b (by simp [hb])) s'⟩

-- What every step preserves holds wherever a run ends.
theorem run_invariant (hstep : ∀ s a s', I s → P s a → step a s = some s' → I s') (h : I s)
    (hP : Along step P as s) (hrun : run step as s = some s') : I s' := by
  induction as generalizing s with
  | nil =>
      cases hrun
      exact h
  | cons a as ih =>
      obtain ⟨s₁, hs, hrun⟩ := Option.bind_eq_some_iff.mp hrun
      exact ih (hstep s a s₁ h hP.1 hs) (hP.2 s₁ hs) hrun

-- The same for what every step preserves on no condition.
theorem run_preserves (hstep : ∀ s a s', I s → step a s = some s' → I s') (h : I s)
    (hrun : run step as s = some s') : I s' :=
  run_invariant (P := fun _ _ => True) (fun s a s' hs _ => hstep s a s' hs) h
    (along_of_forall (fun _ _ _ => trivial) s) hrun

-- Steps that keep the invariant and always have a result.
theorem exists_run (hstep : ∀ s a, I s → P s a → ∃ s', step a s = some s' ∧ I s') (h : I s)
    (hP : Along step P as s) : ∃ s', run step as s = some s' ∧ I s' := by
  induction as generalizing s with
  | nil => exact ⟨s, rfl, h⟩
  | cons a as ih =>
      obtain ⟨s₁, hs, h₁⟩ := hstep s a h hP.1
      obtain ⟨s', hrun, h'⟩ := ih h₁ (hP.2 s₁ hs)
      refine ⟨s', ?_, h'⟩
      rw [run, hs]
      exact hrun

-- A condition that the invariant supplies holds along the run.
theorem along_of_invariant (hstep : ∀ s a s', I s → P s a → step a s = some s' → I s')
    (hQ : ∀ s a, I s → P s a → Q s a) (h : I s) (hP : Along step P as s) :
    Along step Q as s := by
  induction as generalizing s with
  | nil => trivial
  | cons a as ih =>
      exact ⟨hQ s a h hP.1, fun s' hs => ih (hstep s a s' h hP.1 hs) (hP.2 s' hs)⟩

-- Where a step off the condition breaks what is to hold, the condition is exact
-- for the runs under an assumption.
theorem always_iff_along_of {J : σ → Prop} {H : σ → α → Prop} (hI : ∀ s, J s → I s)
    (hstep : ∀ s a s', J s → H s a → P s a → step a s = some s' → J s')
    (hbreak : ∀ s a s', J s → H s a → ¬ P s a → step a s = some s' → ¬ I s') (hJ : J s)
    (hH : Along step H as s) (hrun : run step as s = some s') :
    (∀ bs s₁, bs <+: as → run step bs s = some s₁ → I s₁) ↔ Along step P as s := by
  induction as generalizing s with
  | nil =>
      refine ⟨fun _ => trivial, fun _ bs s₁ hbs hrun => ?_⟩
      rw [List.prefix_nil.mp hbs] at hrun
      cases hrun
      exact hI s hJ
  | cons a as ih =>
      obtain ⟨s₂, hs, hrest⟩ := Option.bind_eq_some_iff.mp hrun
      have hfirst : ∀ bs, run step (a :: bs) s = run step bs s₂ := by
        intro bs
        rw [run, hs]
        rfl
      constructor
      · intro hall
        have hP : P s a := by
          by_contra hP
          exact hbreak s a s₂ hJ hH.1 hP hs (hall [a] s₂ (by simp) (hfirst []))
        refine ⟨hP, fun s₃ hs₃ => ?_⟩
        cases hs.symm.trans hs₃
        apply (ih (hstep s a s₂ hJ hH.1 hP hs) (hH.2 s₂ hs) hrest).mp
        intro bs s₁ hbs hbs₁
        exact hall (a :: bs) s₁ (List.cons_prefix_cons.mpr ⟨rfl, hbs⟩) ((hfirst bs).trans hbs₁)
      · rintro ⟨hP, hall⟩ bs s₁ hbs hbs₁
        cases bs with
        | nil =>
            cases hbs₁
            exact hI s hJ
        | cons b bs =>
            obtain ⟨rfl, htail⟩ := List.cons_prefix_cons.mp hbs
            have hJ₂ := hstep s b s₂ hJ hH.1 hP hs
            exact (ih hJ₂ (hH.2 s₂ hs) hrest).mpr (hall s₂ hs) bs s₁ htail
              ((hfirst bs).symm.trans hbs₁)

theorem always_iff_along {J : σ → Prop} (hI : ∀ s, J s → I s)
    (hstep : ∀ s a s', J s → P s a → step a s = some s' → J s')
    (hbreak : ∀ s a s', J s → ¬ P s a → step a s = some s' → ¬ I s') (hJ : J s)
    (hrun : run step as s = some s') :
    (∀ bs s₁, bs <+: as → run step bs s = some s₁ → I s₁) ↔ Along step P as s :=
  always_iff_along_of (H := fun _ _ => True) hI (fun s a s' hs _ => hstep s a s' hs)
    (fun s a s' hs _ => hbreak s a s' hs) hJ (along_of_forall (fun _ _ _ => trivial) s) hrun

-- Every run can be watched.
theorem exists_watched (note : σ → α → σ → γ → γ) (g : γ) (h : run step as s = some s') :
    ∃ g', run (watched step note) as (s, g) = some (s', g') := by
  induction as generalizing s g with
  | nil =>
      cases h
      exact ⟨g, rfl⟩
  | cons a as ih =>
      obtain ⟨s₁, hs, h⟩ := Option.bind_eq_some_iff.mp h
      obtain ⟨g', hg'⟩ := ih (note s a s₁ g) h
      refine ⟨g', ?_⟩
      simp only [run, watched, hs, Option.map_some, Option.bind_some]
      exact hg'

theorem run_of_watched {note : σ → α → σ → γ → γ} {r r' : σ × γ}
    (h : run (watched step note) as r = some r') : run step as r.1 = some r'.1 := by
  induction as generalizing r with
  | nil =>
      cases h
      rfl
  | cons a as ih =>
      obtain ⟨r₁, hr, h⟩ := Option.bind_eq_some_iff.mp h
      obtain ⟨s₁, hs, rfl⟩ := Option.map_eq_some_iff.mp hr
      rw [run, hs]
      exact ih h

theorem Along.watched {note : σ → α → σ → γ → γ} {g : γ} (h : Along step P as s) :
    Along (Runs.watched step note) (fun r a => P r.1 a) as (s, g) := by
  induction as generalizing s g with
  | nil => trivial
  | cons a as ih =>
      refine ⟨h.1, fun r hr => ?_⟩
      obtain ⟨s₁, hs, rfl⟩ := Option.map_eq_some_iff.mp hr
      exact ih (h.2 s₁ hs)

section Map

variable {τ : Type} {step' : α → τ → Option τ} {R : τ → α → Prop}

-- A function that carries the steps over to those of another system carries the
-- runs over.
theorem run_map (f : σ → τ) (hstep : ∀ s a, I s → R (f s) a → (step a s).map f = step' a (f s))
    (hkeep : ∀ s a s', I s → R (f s) a → step a s = some s' → I s') (h : I s)
    (hR : Along step' R as (f s)) : (run step as s).map f = run step' as (f s) := by
  induction as generalizing s with
  | nil => rfl
  | cons a as ih =>
      have hone := hstep s a h hR.1
      rw [run, run, ← hone]
      cases hs : step a s with
      | none => rfl
      | some s₁ =>
          rw [hs] at hone
          exact ih (hkeep s a s₁ h hR.1 hs) (hR.2 (f s₁) hone.symm)

theorem Along.map (f : σ → τ) (hstep : ∀ s a, I s → P s a → (step a s).map f = step' a (f s))
    (hkeep : ∀ s a s', I s → P s a → step a s = some s' → I s')
    (hR : ∀ s a, I s → P s a → R (f s) a) (h : I s) (hP : Along step P as s) :
    Along step' R as (f s) := by
  induction as generalizing s with
  | nil => trivial
  | cons a as ih =>
      refine ⟨hR s a h hP.1, fun t ht => ?_⟩
      rw [← hstep s a h hP.1] at ht
      obtain ⟨s₁, hs, rfl⟩ := Option.map_eq_some_iff.mp ht
      exact ih (hkeep s a s₁ h hP.1 hs) (hP.2 s₁ hs)

-- Where every step can be followed by steps of another system, every run can.
theorem run_simulates {β : Type} {step' : β → τ → Option τ} {Q : τ → β → Prop} {R : σ → τ → Prop}
    (hstep : ∀ s a s' t, R s t → P s a → step a s = some s' →
      ∃ bs t', run step' bs t = some t' ∧ Along step' Q bs t ∧ R s' t')
    {t : τ} (h : R s t) (hP : Along step P as s) (hrun : run step as s = some s') :
    ∃ bs t', run step' bs t = some t' ∧ Along step' Q bs t ∧ R s' t' := by
  induction as generalizing s t with
  | nil =>
      cases hrun
      exact ⟨[], t, rfl, trivial, h⟩
  | cons a as ih =>
      obtain ⟨s₁, hs, hrun⟩ := Option.bind_eq_some_iff.mp hrun
      obtain ⟨bs, t₁, hbs, hQ, h₁⟩ := hstep s a s₁ t h hP.1 hs
      obtain ⟨cs, t', hcs, hQ', h'⟩ := ih h₁ (hP.2 s₁ hs) hrun
      refine ⟨bs ++ cs, t', ?_, hQ.append fun t₂ ht₂ => ?_, h'⟩
      · rw [run_append, hbs]
        exact hcs
      · cases hbs.symm.trans ht₂
        exact hQ'

end Map

-- What every step preserves as long as the run stays where J holds.
theorem run_while {J : σ → Prop}
    (hstep : ∀ s a s', I s → P s a → J s → J s' → step a s = some s' → I s') (h : I s)
    (hP : Along step P as s) (hJ : ∀ bs s₁, bs <+: as → run step bs s = some s₁ → J s₁)
    (hrun : run step as s = some s') : I s' := by
  induction as generalizing s with
  | nil =>
      cases hrun
      exact h
  | cons a as ih =>
      obtain ⟨s₁, hs, hrun⟩ := Option.bind_eq_some_iff.mp hrun
      have hfirst : ∀ bs, run step (a :: bs) s = run step bs s₁ := by
        intro bs
        rw [run, hs]
        rfl
      have hJ₁ : ∀ bs s₂, bs <+: as → run step bs s₁ = some s₂ → J s₂ := fun bs s₂ hbs hbs₂ =>
        hJ (a :: bs) s₂ (List.cons_prefix_cons.mpr ⟨rfl, hbs⟩) ((hfirst bs).trans hbs₂)
      have hone := hstep s a s₁ h hP.1 (hJ [] s List.nil_prefix rfl) (hJ₁ [] s₁ List.nil_prefix rfl) hs
      exact ih hone (hP.2 s₁ hs) hJ₁ hrun

-- A rank that no step raises and that the marked steps lower bounds their number,
-- as long as the run stays where it is so.
theorem run_ranked {J : σ → Prop} (rank : σ → ℕ) (mark : α → Bool)
    (hkeep : ∀ s a s', I s → P s a → step a s = some s' → I s')
    (hrank : ∀ s a s', I s → P s a → J s → J s' → step a s = some s' →
      rank s' + (if mark a then 1 else 0) ≤ rank s)
    (h : I s) (hP : Along step P as s)
    (hJ : ∀ bs s₁, bs <+: as → run step bs s = some s₁ → J s₁) (hrun : run step as s = some s') :
    rank s' + as.countP mark ≤ rank s := by
  induction as generalizing s with
  | nil =>
      cases hrun
      exact le_refl _
  | cons a as ih =>
      obtain ⟨s₁, hs, hrun⟩ := Option.bind_eq_some_iff.mp hrun
      have hfirst : ∀ bs, run step (a :: bs) s = run step bs s₁ := by
        intro bs
        rw [run, hs]
        rfl
      have hJ₁ : ∀ bs s₂, bs <+: as → run step bs s₁ = some s₂ → J s₂ := fun bs s₂ hbs hbs₂ =>
        hJ (a :: bs) s₂ (List.cons_prefix_cons.mpr ⟨rfl, hbs⟩) ((hfirst bs).trans hbs₂)
      have hone := hrank s a s₁ h hP.1 (hJ [] s (List.nil_prefix) rfl)
        (hJ₁ [] s₁ (List.nil_prefix) rfl) hs
      have hrest := ih (hkeep s a s₁ h hP.1 hs) (hP.2 s₁ hs) hJ₁ hrun
      rw [List.countP_cons]
      omega

end Hoca.Runs
