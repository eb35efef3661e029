import Hoca.Support.Page

namespace Hoca.Support

open Semaphores

-- The process has asked sem_pf for a frame and has not counted it.
def MmPc.Pays : MmPc → Prop
  | .lockCounter _ => True
  | .readCounter _ => True
  | .bumpCounter _ _ => True
  | _ => False

-- It has locked sem_mm and not unlocked it.
def MmPc.Locks : MmPc → Prop
  | .readCounter _ => True
  | .bumpCounter _ _ => True
  | .unlockCounter _ _ => True
  | .setFrame _ _ => True
  | .setPresent _ _ => True
  | .unlockDesc _ => True
  | _ => False

-- It has just locked it.
def MmPc.Starts : MmPc → Prop
  | .readCounter _ => True
  | .setFrame _ _ => True
  | _ => False

-- The frame it has and has not given to a present descriptor.
def MmPc.Holds (pd : Desc → Pd) : MmPc → ℕ → Prop
  | .unlockCounter _ frame, f => frame = f
  | .lockDesc _ frame, f => frame = f
  | .setFrame _ frame, f => frame = f
  | .setPresent d frame, f => frame = f ∧ (pd d).pd_p = false
  | _, _ => False

instance : DecidablePred MmPc.Pays
  | .lockCounter _ | .readCounter _ | .bumpCounter _ _ => isTrue trivial
  | .user | .lockFrames _ | .unlockCounter _ _ | .lockDesc _ _ | .setFrame _ _ | .setPresent _ _
  | .unlockDesc _ | .terminate => isFalse id

instance : DecidablePred MmPc.Locks
  | .readCounter _ | .bumpCounter _ _ | .unlockCounter _ _ | .setFrame _ _ | .setPresent _ _
  | .unlockDesc _ => isTrue trivial
  | .user | .lockFrames _ | .lockCounter _ | .lockDesc _ _ | .terminate => isFalse id

-- The T-processes whose handler is at such a point.
def At (P : MmPc → Prop) (handler : Term → MmPc) : Proc → Prop
  | .cron => False
  | .term i => P (handler i)

instance (P : MmPc → Prop) [DecidablePred P] (handler : Term → MmPc) : DecidablePred (At P handler)
  | .cron => isFalse id
  | .term i => inferInstanceAs (Decidable (P (handler i)))

inductive Owner where
  | desc (d : Desc)
  | handler (i : Term)
deriving DecidableEq

def Owns (pd : Desc → Pd) (handler : Term → MmPc) : Owner → ℕ → Prop
  | .desc d, f => (pd d).pd_p = true ∧ (pd d).pd_frame = f
  | .handler i, f => (handler i).Holds pd f

-- The frames in use are those counted since start, and each has one owner.
structure Isolated (start : ℕ) (pd : Desc → Pd) (counter : ℕ) (m : Sems PageSem Proc)
    (handler : Term → MmPc) : Prop where
  frames : m.Permits .sem_pf (MAXFRAMES - counter) (inside (At MmPc.Pays handler))
  mutex : m.Mutex .sem_mm (inside (At MmPc.Locks handler))
  waits : ∀ i, Proc.term i ∈ m.queue .sem_mm → (handler i).Starts
  bound : counter ≤ MAXFRAMES
  read : ∀ i d n, handler i = .bumpCounter d n → n = counter
  stored : ∀ i d f, handler i = .setPresent d f → (pd d).pd_frame = f
  range : ∀ o f, Owns pd handler o f → start ≤ f ∧ f < start + counter
  unique : ∀ o o' f, Owns pd handler o f → Owns pd handler o' f → o = o'

section At

variable {P : MmPc → Prop} {handler : Term → MmPc} {i : Term} {pc : MmPc} {p : Proc}

theorem at_update_self : At P (Function.update handler i pc) (.term i) ↔ P pc := by
  show P (Function.update handler i pc i) ↔ P pc
  rw [Function.update_self]

theorem at_update_of_ne (hp : p ≠ .term i) :
    At P (Function.update handler i pc) p ↔ At P handler p := by
  cases p with
  | cron => exact Iff.rfl
  | term j =>
      have hj : j ≠ i := fun heq => hp (congrArg Proc.term heq)
      show P (Function.update handler i pc j) ↔ P (handler j)
      rw [Function.update_of_ne hj]

variable [DecidablePred P]

theorem inside_at_keep (h : P pc ↔ P (handler i)) :
    inside (At P (Function.update handler i pc)) = inside (At P handler) := by
  apply inside_congr
  intro p
  by_cases hp : p = .term i
  · subst hp
    exact at_update_self.trans h
  · exact at_update_of_ne hp

theorem inside_at_insert (h : P pc) :
    inside (At P (Function.update handler i pc)) = insert (.term i) (inside (At P handler)) :=
  inside_insert (at_update_self.mpr h) fun _ hp => at_update_of_ne hp

theorem inside_at_erase (h : ¬ P pc) :
    inside (At P (Function.update handler i pc)) = (inside (At P handler)).erase (.term i) :=
  inside_erase (at_update_self.not.mpr h) fun _ hp => at_update_of_ne hp

end At

namespace Isolated

variable {start : ℕ} {pd : Desc → Pd} {n : ℕ} {m m' : Sems PageSem Proc} {handler : Term → MmPc}
  {i j : Term} {d : Desc} {f : ℕ} {pc : MmPc}

-- Next to a process that works in the section of sem_mm another may only wait for it.
theorem alone (h : Isolated start pd n m handler) (hi : (handler i).Locks)
    (hq : Proc.term i ∉ m.queue .sem_mm) (hj : j ≠ i) (hlocks : (handler j).Locks) :
    (handler j).Starts := by
  apply h.waits
  by_contra hjq
  have hmem : Proc.term i ∈ inside (At MmPc.Locks handler) := mem_inside.mpr hi
  have hmem' : Proc.term j ∈ inside (At MmPc.Locks handler) := mem_inside.mpr hlocks
  exact hj (Proc.term.inj (h.mutex.unique hmem' hjq hmem hq))

-- Who owns a frame when a handler has gone on.
theorem owns_update {o : Owner} (ho : Owns pd (Function.update handler i pc) o f) :
    o = .handler i ∧ pc.Holds pd f ∨ o ≠ .handler i ∧ Owns pd handler o f := by
  cases o with
  | desc d => exact Or.inr ⟨nofun, ho⟩
  | handler j =>
      by_cases hj : j = i
      · subst hj
        simp only [Owns, Function.update_self] at ho
        exact Or.inl ⟨rfl, ho⟩
      · simp only [Owns, Function.update_of_ne hj] at ho
        exact Or.inr ⟨fun heq => hj (Owner.handler.inj heq), ho⟩

-- A handler goes on, with the frame it has or without it.
theorem turns (h : Isolated start pd n m handler)
    (hframes : m'.Permits .sem_pf (MAXFRAMES - n) (inside (At MmPc.Pays (Function.update handler i pc))))
    (hmutex : m'.Mutex .sem_mm (inside (At MmPc.Locks (Function.update handler i pc))))
    (hwaits : ∀ j, Proc.term j ∈ m'.queue .sem_mm →
      Proc.term j ∈ m.queue .sem_mm ∧ j ≠ i ∨ j = i ∧ pc.Starts)
    (hread : ∀ d c, pc = .bumpCounter d c → c = n) (hstored : ∀ d f, pc ≠ .setPresent d f)
    (hholds : ∀ f, pc.Holds pd f → (handler i).Holds pd f) :
    Isolated start pd n m' (Function.update handler i pc) := by
  have howns : ∀ o f, Owns pd (Function.update handler i pc) o f → Owns pd handler o f := by
    intro o f ho
    rcases owns_update ho with ⟨rfl, hf⟩ | ⟨-, ho⟩
    · exact hholds f hf
    · exact ho
  constructor
  · exact hframes
  · exact hmutex
  · intro j hj
    rcases hwaits j hj with ⟨hq, hne⟩ | ⟨rfl, hstarts⟩
    · rw [Function.update_of_ne hne]
      exact h.waits j hq
    · rw [Function.update_self]
      exact hstarts
  · exact h.bound
  · exact (Function.forall_update_iff handler fun _ pc => ∀ d c, pc = .bumpCounter d c → c = n).mpr
      ⟨hread, fun j _ => h.read j⟩
  · exact (Function.forall_update_iff handler fun _ pc =>
      ∀ d f, pc = .setPresent d f → (pd d).pd_frame = f).mpr
        ⟨fun d f hf => absurd hf (hstored d f), fun j _ => h.stored j⟩
  · exact fun o f ho => h.range o f (howns o f ho)
  · exact fun o o' f ho ho' => h.unique o o' f (howns o f ho) (howns o' f ho')

theorem not_bump (h : Isolated start pd n m handler) (hi : (handler i).Locks)
    (hq : Proc.term i ∉ m.queue .sem_mm) (hj : j ≠ i) (d : Desc) (c : ℕ) :
    handler j ≠ .bumpCounter d c := by
  intro hpc
  have hstarts := h.alone hi hq hj (by rw [hpc]; trivial)
  rw [hpc] at hstarts
  exact hstarts

theorem not_setPresent (h : Isolated start pd n m handler) (hi : (handler i).Locks)
    (hq : Proc.term i ∉ m.queue .sem_mm) (hj : j ≠ i) (d : Desc) (f : ℕ) :
    handler j ≠ .setPresent d f := by
  intro hpc
  have hstarts := h.alone hi hq hj (by rw [hpc]; trivial)
  rw [hpc] at hstarts
  exact hstarts

theorem waits_update (h : Isolated start pd n m handler) (hq : Proc.term i ∉ m.queue .sem_mm) :
    ∀ j, Proc.term j ∈ m.queue .sem_mm → (Function.update handler i pc j).Starts := by
  intro j hj
  have hne : j ≠ i := by
    rintro rfl
    exact hq hj
  rw [Function.update_of_ne hne]
  exact h.waits j hj

-- What another handler has does not depend on the descriptors.
theorem holds_other (h : Isolated start pd n m handler) (hi : (handler i).Locks)
    (hq : Proc.term i ∉ m.queue .sem_mm) (hj : j ≠ i) {pd' : Desc → Pd}
    (hf : (handler j).Holds pd' f) : (handler j).Holds pd f := by
  cases hpc : handler j with
  | setPresent d f' => exact absurd hpc (h.not_setPresent hi hq hj d f')
  | _ =>
      rw [hpc] at hf
      exact hf

-- The next frame is new.
theorem bumps (h : Isolated start pd n m handler) {c : ℕ} (hpc : handler i = .bumpCounter d c)
    (hpf : Proc.term i ∉ m.queue .sem_pf) (hq : Proc.term i ∉ m.queue .sem_mm) :
    Isolated start pd (c + 1) m (Function.update handler i (.unlockCounter d (c + start))) := by
  obtain rfl := h.read i d c hpc
  have hlocks : (handler i).Locks := by
    rw [hpc]
    trivial
  have hpays : Proc.term i ∈ inside (At MmPc.Pays handler) := by
    apply mem_inside.mpr
    show (handler i).Pays
    rw [hpc]
    trivial
  have howns : ∀ o f, Owns pd (Function.update handler i (.unlockCounter d (c + start))) o f →
      Owns pd handler o f ∨ o = .handler i ∧ f = c + start := by
    intro o f ho
    rcases owns_update ho with ⟨rfl, hf⟩ | ⟨-, ho⟩
    · exact Or.inr ⟨rfl, hf.symm⟩
    · exact Or.inl ho
  constructor
  · rw [inside_at_erase id]
    have hspend := h.frames.spend hpays hpf
    have hcast : (MAXFRAMES : Int) - (c + 1 : ℕ) = (MAXFRAMES : Int) - c - 1 := by
      push_cast
      omega
    rw [hcast]
    exact hspend
  · rw [inside_at_keep (iff_of_true trivial hlocks)]
    exact h.mutex
  · exact h.waits_update hq
  · have hone := h.frames.one_le hpays hpf
    omega
  · refine (Function.forall_update_iff handler fun _ pc =>
      ∀ d' c', pc = .bumpCounter d' c' → c' = c + 1).mpr ⟨fun d' c' hc => ?_, fun j hj d' c' hc => ?_⟩
    · cases hc
    · exact absurd hc (h.not_bump hlocks hq hj d' c')
  · refine (Function.forall_update_iff handler fun _ pc =>
      ∀ d' f, pc = .setPresent d' f → (pd d').pd_frame = f).mpr
        ⟨fun d' f hf => ?_, fun j _ => h.stored j⟩
    cases hf
  · intro o f ho
    rcases howns o f ho with ho | ⟨-, rfl⟩
    · have hrange := h.range o f ho
      omega
    · omega
  · intro o o' f ho ho'
    rcases howns o f ho with ho | ⟨rfl, rfl⟩
    · have hrange := h.range o f ho
      rcases howns o' f ho' with ho' | ⟨rfl, rfl⟩
      · exact h.unique o o' f ho ho'
      · omega
    · rcases howns o' _ ho' with ho' | ⟨rfl, -⟩
      · have hrange := h.range o' _ ho'
        omega
      · rfl

-- The handler gives its frame to the descriptor, or only stores it there while the
-- descriptor is not present.
theorem stores (h : Isolated start pd n m handler) (hstart : start + MAXFRAMES < 2 ^ 15)
    (hpc : handler i = .setFrame d f) (hq : Proc.term i ∉ m.queue .sem_mm) :
    Isolated start (Function.update pd d ((pd d).setFrame f)) n m
      (Function.update handler i (.setPresent d f)) := by
  have hlocks : (handler i).Locks := by
    rw [hpc]
    trivial
  have hown : Owns pd handler (.handler i) f := by
    show (handler i).Holds pd f
    rw [hpc]
    rfl
  have hframe : f % 2 ^ 15 = f := by
    have hrange := h.range _ f hown
    have hbound := h.bound
    exact Nat.mod_eq_of_lt (by omega)
  have hpresent : ∀ d', (Function.update pd d ((pd d).setFrame f) d').pd_p = (pd d').pd_p := by
    intro d'
    by_cases hd : d' = d
    · subst hd
      rw [Function.update_self]
      rfl
    · rw [Function.update_of_ne hd]
  have howns : ∀ o g, Owns (Function.update pd d ((pd d).setFrame f))
      (Function.update handler i (.setPresent d f)) o g →
      Owns pd handler o g ∧ o ≠ .desc d ∧ o ≠ .handler i ∨
        g = f ∧ (o = .desc d ∧ (pd d).pd_p = true ∨ o = .handler i ∧ (pd d).pd_p = false) := by
    intro o g ho
    rcases owns_update ho with ⟨rfl, hg, hp⟩ | ⟨hne, ho⟩
    · rw [Function.update_self] at hp
      exact Or.inr ⟨hg.symm, Or.inr ⟨rfl, hp⟩⟩
    · cases o with
      | desc d' =>
          obtain ⟨hp, hg⟩ := ho
          rw [hpresent] at hp
          by_cases hd : d' = d
          · subst hd
            rw [Function.update_self] at hg
            exact Or.inr ⟨hg.symm.trans hframe, Or.inl ⟨rfl, hp⟩⟩
          · rw [Function.update_of_ne hd] at hg
            exact Or.inl ⟨⟨hp, hg⟩, fun heq => hd (Owner.desc.inj heq), hne⟩
      | handler j =>
          have hj : j ≠ i := fun heq => hne (congrArg Owner.handler heq)
          exact Or.inl ⟨h.holds_other hlocks hq hj ho, nofun, hne⟩
  constructor
  · rw [inside_at_keep (iff_of_false id (by rw [hpc]; exact id))]
    exact h.frames
  · rw [inside_at_keep (iff_of_true trivial hlocks)]
    exact h.mutex
  · exact h.waits_update hq
  · exact h.bound
  · refine (Function.forall_update_iff handler fun _ pc =>
      ∀ d' c, pc = .bumpCounter d' c → c = n).mpr ⟨fun d' c hc => ?_, fun j _ => h.read j⟩
    cases hc
  · refine (Function.forall_update_iff handler fun _ pc => ∀ d' f', pc = .setPresent d' f' →
      (Function.update pd d ((pd d).setFrame f) d').pd_frame = f').mpr
        ⟨fun d' f' hf => ?_, fun j hj d' f' hf => ?_⟩
    · cases hf
      rw [Function.update_self]
      exact hframe
    · exact absurd hf (h.not_setPresent hlocks hq hj d' f')
  · intro o g ho
    rcases howns o g ho with ⟨ho, -, -⟩ | ⟨rfl, -⟩
    · exact h.range o g ho
    · exact h.range _ _ hown
  · intro o o' g ho ho'
    rcases howns o g ho with ⟨hold, -, hne⟩ | ⟨rfl, hcase⟩
    · rcases howns o' g ho' with ⟨hold', -, -⟩ | ⟨rfl, -⟩
      · exact h.unique o o' g hold hold'
      · exact absurd (h.unique o _ _ hold hown) hne
    · rcases howns o' _ ho' with ⟨hold', -, hne⟩ | ⟨-, hcase'⟩
      · exact absurd (h.unique o' _ _ hold' hown) hne
      · rcases hcase with ⟨rfl, hp⟩ | ⟨rfl, hp⟩
        · rcases hcase' with ⟨rfl, -⟩ | ⟨-, hp'⟩
          · rfl
          · rw [hp] at hp'
            cases hp'
        · rcases hcase' with ⟨-, hp'⟩ | ⟨rfl, -⟩
          · rw [hp] at hp'
            cases hp'
          · rfl

-- The descriptor becomes present with the frame that the handler had.
theorem presents (h : Isolated start pd n m handler) (hpc : handler i = .setPresent d f)
    (hq : Proc.term i ∉ m.queue .sem_mm) :
    Isolated start (Function.update pd d (pd d).setPresent) n m
      (Function.update handler i (.unlockDesc d)) := by
  have hlocks : (handler i).Locks := by
    rw [hpc]
    trivial
  have hstored := h.stored i d f hpc
  -- The owner so far of the frame that the descriptor owns now.
  obtain ⟨b, hown, hb⟩ : ∃ b, Owns pd handler b f ∧ (b = .desc d ∨ b = .handler i) := by
    by_cases hp : (pd d).pd_p = true
    · exact ⟨.desc d, ⟨hp, hstored⟩, Or.inl rfl⟩
    · refine ⟨.handler i, ?_, Or.inr rfl⟩
      show (handler i).Holds pd f
      rw [hpc]
      exact ⟨rfl, by simpa using hp⟩
  have hframe : ∀ d', (Function.update pd d (pd d).setPresent d').pd_frame = (pd d').pd_frame := by
    intro d'
    by_cases hd : d' = d
    · subst hd
      rw [Function.update_self]
      rfl
    · rw [Function.update_of_ne hd]
  have howns : ∀ o g, Owns (Function.update pd d (pd d).setPresent)
      (Function.update handler i (.unlockDesc d)) o g →
      Owns pd handler o g ∧ o ≠ .desc d ∧ o ≠ .handler i ∨ g = f ∧ o = .desc d := by
    intro o g ho
    rcases owns_update ho with ⟨-, hg⟩ | ⟨hne, ho⟩
    · exact False.elim hg
    · cases o with
      | desc d' =>
          by_cases hd : d' = d
          · subst hd
            exact Or.inr ⟨ho.2.symm.trans ((hframe d').trans hstored), rfl⟩
          · simp only [Owns, Function.update_of_ne hd] at ho
            exact Or.inl ⟨ho, fun heq => hd (Owner.desc.inj heq), hne⟩
      | handler j =>
          have hj : j ≠ i := fun heq => hne (congrArg Owner.handler heq)
          exact Or.inl ⟨h.holds_other hlocks hq hj ho, nofun, hne⟩
  constructor
  · rw [inside_at_keep (iff_of_false id (by rw [hpc]; exact id))]
    exact h.frames
  · rw [inside_at_keep (iff_of_true trivial hlocks)]
    exact h.mutex
  · exact h.waits_update hq
  · exact h.bound
  · refine (Function.forall_update_iff handler fun _ pc =>
      ∀ d' c, pc = .bumpCounter d' c → c = n).mpr ⟨fun d' c hc => ?_, fun j _ => h.read j⟩
    cases hc
  · refine (Function.forall_update_iff handler fun _ pc => ∀ d' f', pc = .setPresent d' f' →
      (Function.update pd d (pd d).setPresent d').pd_frame = f').mpr
        ⟨fun d' f' hf => ?_, fun j hj d' f' hf => ?_⟩
    · cases hf
    · exact absurd hf (h.not_setPresent hlocks hq hj d' f')
  · intro o g ho
    rcases howns o g ho with ⟨ho, -, -⟩ | ⟨rfl, -⟩
    · exact h.range o g ho
    · exact h.range b _ hown
  · intro o o' g ho ho'
    rcases howns o g ho with ⟨hold, hd, hi⟩ | ⟨rfl, rfl⟩
    · rcases howns o' g ho' with ⟨hold', -, -⟩ | ⟨rfl, -⟩
      · exact h.unique o o' g hold hold'
      · obtain rfl := h.unique o b _ hold hown
        exact absurd hb (not_or.mpr ⟨hd, hi⟩)
    · rcases howns o' _ ho' with ⟨hold', hd, hi⟩ | ⟨-, rfl⟩
      · obtain rfl := h.unique o' b _ hold' hown
        exact absurd hb (not_or.mpr ⟨hd, hi⟩)
      · rfl

end Isolated

namespace Memory

variable {l : Linker} {g : Frames} {s s' s₀ : Memory} {a : MmAction} {i : Term}

def Isolated (s : Memory) : Prop :=
  Support.Isolated s.pf_start s.pd s.pf_ctr s.sems s.handler

theorem not_at {P : MmPc → Prop} [DecidablePred P] {pc : MmPc} (hpc : s.handler i = pc) (h : ¬ P pc) :
    Proc.term i ∉ inside (At P s.handler) := by
  rw [mem_inside]
  show ¬ P (s.handler i)
  rw [hpc]
  exact h

theorem is_at {P : MmPc → Prop} [DecidablePred P] {pc : MmPc} (hpc : s.handler i = pc) (h : P pc) :
    Proc.term i ∈ inside (At P s.handler) := by
  rw [mem_inside]
  show P (s.handler i)
  rw [hpc]
  exact h

theorem inside_keep {P : MmPc → Prop} [DecidablePred P] {pc pc' : MmPc} (hpc : s.handler i = pc)
    (h : P pc' ↔ P pc) :
    inside (At P (Function.update s.handler i pc')) = inside (At P s.handler) := by
  apply inside_at_keep
  rw [hpc]
  exact h

theorem locks_of_starts {pc : MmPc} (h : pc.Starts) : pc.Locks := by
  cases pc with
  | readCounter d => trivial
  | setFrame d f => trivial
  | _ => exact False.elim h

-- The handler asks for sem_mm, with the frame it has.
theorem Isolated.locks (h : s.Isolated) (hmm : Proc.term i ∉ s.sems.queue .sem_mm) {pc pc' : MmPc}
    (hpc : s.handler i = pc) (hout : ¬ pc.Locks) (hstarts : pc'.Starts)
    (hpays : pc'.Pays ↔ pc.Pays) (hholds : ∀ f, pc'.Holds s.pd f → pc.Holds s.pd f) :
    ({ s.setHandler i pc' with sems := s.sems.op (.term i) (.P .sem_mm) } : Memory).Isolated := by
  show Support.Isolated s.pf_start s.pd s.pf_ctr (s.sems.op (.term i) (.P .sem_mm))
    (Function.update s.handler i pc')
  apply Support.Isolated.turns h
  · rw [inside_keep hpc hpays]
    exact h.frames.frame_op nofun
  · rw [inside_at_insert (locks_of_starts hstarts)]
    exact h.mutex.enter (not_at hpc hout)
  · intro j hj
    rcases Sems.mem_queue_op hj with hq | ⟨hj, -⟩
    · refine Or.inl ⟨hq, ?_⟩
      rintro rfl
      exact hmm hq
    · exact Or.inr ⟨Proc.term.inj hj, hstarts⟩
  · rintro d c rfl
    exact False.elim hstarts
  · rintro d f rfl
    exact hstarts
  · intro f hf
    rw [hpc]
    exact hholds f hf

-- It gives sem_mm back.
theorem Isolated.unlocks (h : s.Isolated) (hmm : Proc.term i ∉ s.sems.queue .sem_mm)
    {pc pc' : MmPc} (hpc : s.handler i = pc) (hin : pc.Locks) (hout : ¬ pc'.Locks)
    (hpays : pc'.Pays ↔ pc.Pays) (hholds : ∀ f, pc'.Holds s.pd f → pc.Holds s.pd f) :
    ({ s.setHandler i pc' with sems := s.sems.op (.term i) (.V .sem_mm) } : Memory).Isolated := by
  show Support.Isolated s.pf_start s.pd s.pf_ctr (s.sems.op (.term i) (.V .sem_mm))
    (Function.update s.handler i pc')
  apply Support.Isolated.turns h
  · rw [inside_keep hpc hpays]
    exact h.frames.frame_op nofun
  · rw [inside_at_erase hout]
    exact h.mutex.leave (is_at hpc hin) hmm
  · intro j hj
    rcases Sems.mem_queue_op hj with hq | ⟨-, ho⟩
    · refine Or.inl ⟨hq, ?_⟩
      rintro rfl
      exact hmm hq
    · cases ho
  · rintro d c rfl
    exact absurd trivial hout
  · rintro d f rfl
    exact hout trivial
  · intro f hf
    rw [hpc]
    exact hholds f hf

-- It asks sem_pf for a frame.
theorem Isolated.asks (h : s.Isolated) (hmm : Proc.term i ∉ s.sems.queue .sem_mm) {d : Desc}
    (hpc : s.handler i = .lockFrames d) :
    ({ s.setHandler i (.lockCounter d) with
      sems := s.sems.op (.term i) (.P .sem_pf) } : Memory).Isolated := by
  show Support.Isolated s.pf_start s.pd s.pf_ctr (s.sems.op (.term i) (.P .sem_pf))
    (Function.update s.handler i (.lockCounter d))
  apply Support.Isolated.turns h
  · rw [inside_at_insert trivial]
    exact h.frames.enter (not_at hpc id)
  · rw [inside_keep hpc (iff_of_false id id)]
    exact h.mutex.frame_op nofun
  · intro j hj
    rcases Sems.mem_queue_op hj with hq | ⟨-, ho⟩
    · refine Or.inl ⟨hq, ?_⟩
      rintro rfl
      exact hmm hq
    · cases ho
  · exact nofun
  · exact nofun
  · exact nofun

-- It reads the counter.
theorem Isolated.reads (h : s.Isolated) (hmm : Proc.term i ∉ s.sems.queue .sem_mm) {d : Desc}
    (hpc : s.handler i = .readCounter d) : (s.setHandler i (.bumpCounter d s.pf_ctr)).Isolated := by
  show Support.Isolated s.pf_start s.pd s.pf_ctr s.sems
    (Function.update s.handler i (.bumpCounter d s.pf_ctr))
  apply Support.Isolated.turns h
  · rw [inside_keep hpc (iff_of_true trivial trivial)]
    exact h.frames
  · rw [inside_keep hpc (iff_of_true trivial trivial)]
    exact h.mutex
  · intro j hj
    refine Or.inl ⟨hj, ?_⟩
    rintro rfl
    exact hmm hj
  · rintro d' c ⟨⟩
    rfl
  · exact nofun
  · exact nofun

theorem Isolated.handle (h : s.Isolated) (hstart : s.pf_start + MAXFRAMES < 2 ^ 15)
    (hpf : Proc.term i ∉ s.sems.queue .sem_pf) (hmm : Proc.term i ∉ s.sems.queue .sem_mm)
    (hs : s.handle i = some s') : s'.Isolated := by
  unfold Memory.handle at hs
  split at hs
  · cases hs
  · next d hpc =>
    cases hs
    exact h.asks hmm hpc
  · next d hpc =>
    cases hs
    exact h.locks hmm hpc id trivial (iff_of_true trivial trivial) fun _ => id
  · next d hpc =>
    cases hs
    exact h.reads hmm hpc
  · next d c hpc =>
    cases hs
    exact Support.Isolated.bumps h hpc hpf hmm
  · next d f hpc =>
    cases hs
    exact h.unlocks hmm hpc trivial id (iff_of_false id id) fun _ => id
  · next d f hpc =>
    cases hs
    exact h.locks hmm hpc id trivial (iff_of_false id id) fun _ => id
  · next d f hpc =>
    cases hs
    exact Support.Isolated.stores h hstart hpc hmm
  · next d f hpc =>
    cases hs
    exact Support.Isolated.presents h hpc hmm
  · next d hpc =>
    cases hs
    exact h.unlocks hmm hpc trivial id (iff_of_false id id) nofun
  · cases hs

theorem slmmhandler_cases (i : Term) (typ seg pg : ℕ) :
    slmmhandler i typ seg pg = .terminate ∨ ∃ d, slmmhandler i typ seg pg = .lockFrames d := by
  unfold slmmhandler
  split
  · split
    · exact Or.inl rfl
    · split
      · exact Or.inr ⟨_, rfl⟩
      · exact Or.inl rfl
  · exact Or.inl rfl

theorem step_fault {typ seg pg : ℕ} (h : step (.fault i typ seg pg) s = some s') :
    s.handler i = .user ∧ (typ = PAGEMISS → s.Missing i seg pg) ∧
      s' = s.setHandler i (slmmhandler i typ seg pg) := by
  rw [step] at h
  split at h
  · next hb => exact ⟨hb.1, hb.2, (Option.some.inj h).symm⟩
  · cases h

theorem step_handle (h : step (.handle i) s = some s') :
    Proc.term i ∉ s.sems.queue .sem_pf ∧ Proc.term i ∉ s.sems.queue .sem_mm ∧
      s.handle i = some s' := by
  rw [step] at h
  split at h
  · cases h
  · next hb =>
    rw [not_or] at hb
    exact ⟨hb.1, hb.2, h⟩

theorem Isolated.fault (h : s.Isolated) {pc : MmPc} (hpc : s.handler i = .user)
    (hpc' : pc = .terminate ∨ ∃ d, pc = .lockFrames d) : (s.setHandler i pc).Isolated := by
  have hidle : ¬ pc.Pays ∧ ¬ pc.Locks ∧ (∀ d c, pc ≠ .bumpCounter d c) ∧
      (∀ d f, pc ≠ .setPresent d f) ∧ ∀ f, ¬ pc.Holds s.pd f := by
    rcases hpc' with rfl | ⟨d, rfl⟩
    · exact ⟨id, id, nofun, nofun, fun _ => id⟩
    · exact ⟨id, id, nofun, nofun, fun _ => id⟩
  obtain ⟨hpays, hlocks, hread, hstored, hholds⟩ := hidle
  have hq : Proc.term i ∉ s.sems.queue .sem_mm := by
    intro hq
    have hstarts := h.waits i hq
    rw [hpc] at hstarts
    exact hstarts
  apply Support.Isolated.turns h
  · rw [inside_keep hpc (iff_of_false hpays id)]
    exact h.frames
  · rw [inside_keep hpc (iff_of_false hlocks id)]
    exact h.mutex
  · intro j hj
    refine Or.inl ⟨hj, ?_⟩
    rintro rfl
    exact hq hj
  · exact fun d c hc => absurd hc (hread d c)
  · exact hstored
  · exact fun f hf => absurd hf (hholds f)

theorem Isolated.step (h : s.Isolated) (hstart : s.pf_start + MAXFRAMES < 2 ^ 15)
    (hs : Memory.step a s = some s') : s'.Isolated := by
  cases a with
  | fault i typ seg pg =>
      obtain ⟨hpc, -, rfl⟩ := step_fault hs
      exact h.fault hpc (slmmhandler_cases i typ seg pg)
  | handle i =>
      obtain ⟨hpf, hmm, hs⟩ := step_handle hs
      exact h.handle hstart hpf hmm hs

-- The tables of segment 0 and the first frame stay as p1 made them.
theorem step_tables (hs : step a s = some s') :
    s'.pf_start = s.pf_start ∧ s'.kernel_mode_pd_table = s.kernel_mode_pd_table ∧
      s'.cron_pd_table = s.cron_pd_table := by
  cases a with
  | fault i typ seg pg =>
      obtain ⟨-, -, rfl⟩ := step_fault hs
      exact ⟨rfl, rfl, rfl⟩
  | handle i =>
      obtain ⟨-, -, hs⟩ := step_handle hs
      unfold Memory.handle at hs
      split at hs
      all_goals cases hs
      all_goals exact ⟨rfl, rfl, rfl⟩

section Boot

-- What p1 has set up before it hands out the pages for the bootcode.
structure Booted (l : Linker) (g : Frames) (s : Memory) : Prop where
  isolated : s.Isolated
  idle : ∀ i, s.handler i = .user
  start : s.pf_start = g.pf_start
  kernel : s.kernel_mode_pd_table = kernelPage l g
  cron : s.cron_pd_table = cronPage l g

theorem pageinit_eq (h : pageinit l = some g) : l.end_ / PAGESIZE ≤ 220 ∧
    g.pf_start = l.end_ / PAGESIZE + 17 ∧
    (∀ i, g.Tsysstack i / PAGESIZE = l.end_ / PAGESIZE + 2 + i) ∧
    (∀ i, g.Tmmstack i / PAGESIZE = l.end_ / PAGESIZE + 7 + i) := by
  unfold pageinit at h
  dsimp only at h
  split at h
  · cases h
  · cases h
    refine ⟨by omega, rfl, ?_, ?_⟩
    · intro i
      dsimp only [PAGESIZE]
      omega
    · intro i
      dsimp only [PAGESIZE]
      omega

-- Everything p1 marks as present lies below the frames that are handed out.
theorem kernelPage_lt (h : pageinit l = some g) {pgFrame : Fin KERNEL_PAGES}
    (hp : (kernelPage l g i pgFrame).pd_p = true) :
    (kernelPage l g i pgFrame).pd_frame < g.pf_start := by
  obtain ⟨-, hstart, hsys, hmm⟩ := pageinit_eq h
  have htext : l.etext / PAGESIZE ≤ l.end_ / PAGESIZE :=
    Nat.div_le_div_right (l.text_data.trans (l.data.trans (l.data_bss.trans l.bss)))
  have hdata : l.edata / PAGESIZE ≤ l.end_ / PAGESIZE :=
    Nat.div_le_div_right (l.data_bss.trans l.bss)
  have hi : i.val < 2 := i.isLt
  show pgFrame.val < g.pf_start
  rw [hstart]
  simp only [kernelPage, hsys, hmm, Fin.val_castLE] at hp
  generalize l.end_ / PAGESIZE = endframe at *
  simp only [START_DEVICE_REG] at hp
  split at hp
  · omega
  · split at hp
    · omega
    · split at hp
      · omega
      · split at hp
        · omega
        · split at hp
          · omega
          · split at hp
            · omega
            · split at hp
              · omega
              · cases hp

theorem cronPage_lt (h : pageinit l = some g) {pgFrame : Fin KERNEL_PAGES}
    (hp : (cronPage l g pgFrame).pd_p = true) : (cronPage l g pgFrame).pd_frame < g.pf_start := by
  obtain ⟨-, hstart, -, -⟩ := pageinit_eq h
  have htext : l.etext / PAGESIZE ≤ l.end_ / PAGESIZE :=
    Nat.div_le_div_right (l.text_data.trans (l.data.trans (l.data_bss.trans l.bss)))
  have hdata : l.edata / PAGESIZE ≤ l.end_ / PAGESIZE :=
    Nat.div_le_div_right (l.data_bss.trans l.bss)
  show pgFrame.val < g.pf_start
  rw [hstart]
  simp only [cronPage] at hp
  generalize l.end_ / PAGESIZE = endframe at *
  split at hp
  · omega
  · split at hp
    · omega
    · split at hp
      · omega
      · split at hp
        · omega
        · split at hp
          · omega
          · cases hp

theorem inside_none {P : MmPc → Prop} [DecidablePred P] (h : ¬ P .user) :
    inside (At P fun _ => MmPc.user) = ∅ := by
  apply Finset.eq_empty_of_forall_notMem
  intro p hp
  rw [mem_inside] at hp
  cases p with
  | cron => exact hp
  | term i => exact h hp

theorem inside_idle {P : MmPc → Prop} [DecidablePred P] (hidle : ∀ i, s.handler i = .user)
    (h : ¬ P .user) : inside (At P s.handler) = ∅ := by
  rw [funext hidle]
  exact inside_none h

theorem Booted.bootPage (h : Booted l g s) (hstart : s.pf_start + MAXFRAMES < 2 ^ 15)
    (hctr : s.pf_ctr < MAXFRAMES) (i : Term) : Booted l g (s.bootPage i) := by
  have hpays := inside_idle (P := MmPc.Pays) h.idle id
  have hlocks := inside_idle (P := MmPc.Locks) h.idle id
  have hframes := h.isolated.frames
  have hmutex := h.isolated.mutex
  rw [hpays] at hframes
  rw [hlocks] at hmutex
  have hpf : Proc.cron ∉ (s.sems.op .cron (.P .sem_pf)).queue .sem_pf := by
    have hword := hframes.word
    simp only [Finset.card_empty] at hword
    rw [Sems.queue_P, if_neg (by omega)]
    exact fun hq => Finset.notMem_empty _ (hframes.within _ hq)
  have hmm : Proc.cron ∉ ((s.sems.op .cron (.P .sem_pf)).op .cron (.P .sem_mm)).queue .sem_mm := by
    have hone := hmutex.frame_op (p := .cron) (o := .P .sem_pf) nofun
    have hword := hone.word
    simp only [Finset.card_empty] at hword
    rw [Sems.queue_P, if_neg (by omega)]
    exact fun hq => Finset.notMem_empty _ (hone.within _ hq)
  have hframes' := ((hframes.enter (Finset.notMem_empty Proc.cron)).spend
    (Finset.mem_insert_self ..) hpf).frame_op (p := .cron) (o := .P .sem_mm) nofun
  have hmutex' := ((hmutex.frame_op (p := .cron) (o := .P .sem_pf) nofun).enter
    (Finset.notMem_empty Proc.cron)).leave (Finset.mem_insert_self ..) hmm
  rw [Finset.erase_insert (Finset.notMem_empty _)] at hframes' hmutex'
  have hframe : (s.pf_ctr + s.pf_start) % 2 ^ 15 = s.pf_ctr + s.pf_start :=
    Nat.mod_eq_of_lt (by omega)
  have howns : ∀ o f, Owns (s.bootPage i).pd s.handler o f →
      Owns s.pd s.handler o f ∨ o = .desc (.user i 31) ∧ f = s.pf_ctr + s.pf_start := by
    intro o f ho
    cases o with
    | desc d =>
        by_cases hd : d = .user i 31
        · subst hd
          simp only [Owns, Memory.bootPage, Memory.getfreeframe, Function.update_self] at ho
          exact Or.inr ⟨rfl, ho.2.symm.trans hframe⟩
        · simp only [Owns, Memory.bootPage, Memory.getfreeframe, Function.update_of_ne hd] at ho
          exact Or.inl ho
    | handler j =>
        simp only [Owns, h.idle j] at ho
        exact False.elim ho
  refine ⟨?_, h.idle, h.start, h.kernel, h.cron⟩
  constructor
  · show Sems.Permits _ _ _ (inside (At MmPc.Pays s.handler))
    rw [hpays]
    have hcast : (MAXFRAMES : Int) - (s.pf_ctr + 1 : ℕ) = (MAXFRAMES : Int) - s.pf_ctr - 1 := by
      push_cast
      omega
    show Sems.Permits _ _ ((MAXFRAMES : Int) - (s.pf_ctr + 1 : ℕ)) _
    rw [hcast]
    have hleft := hframes'.frame_op (p := .cron) (o := .V .sem_mm) nofun
    exact hleft
  · show Sems.Permits _ _ _ (inside (At MmPc.Locks s.handler))
    rw [hlocks]
    exact hmutex'
  · intro j hj
    exact absurd (hmutex'.within _ hj) (Finset.notMem_empty _)
  · exact hctr
  · intro j d c hc
    cases (h.idle j).symm.trans hc
  · intro j d f hf
    cases (h.idle j).symm.trans hf
  · intro o f ho
    show s.pf_start ≤ f ∧ f < s.pf_start + (s.pf_ctr + 1)
    rcases howns o f ho with ho | ⟨-, rfl⟩
    · have hrange := h.isolated.range o f ho
      omega
    · omega
  · intro o o' f ho ho'
    rcases howns o f ho with hold | ⟨rfl, rfl⟩
    · have hrange := h.isolated.range o f hold
      rcases howns o' f ho' with hold' | ⟨rfl, rfl⟩
      · exact h.isolated.unique o o' f hold hold'
      · omega
    · rcases howns o' _ ho' with hold' | ⟨rfl, -⟩
      · have hrange := h.isolated.range o' _ hold'
        omega
      · rfl

theorem Booted.foldl (is : List Term) (h : Booted l g s) (hstart : s.pf_start + MAXFRAMES < 2 ^ 15)
    (hctr : s.pf_ctr + is.length ≤ MAXFRAMES) : Booted l g (is.foldl Memory.bootPage s) := by
  induction is generalizing s with
  | nil => exact h
  | cons i is ih =>
      rw [List.length_cons] at hctr
      have hnext : (s.bootPage i).pf_ctr = s.pf_ctr + 1 := rfl
      apply ih (h.bootPage hstart (by omega) i)
      · exact hstart
      · omega

theorem p1_booted (h : p1 l = some s₀) : ∃ g, pageinit l = some g ∧ Booted l g s₀ := by
  unfold p1 at h
  obtain ⟨g, hg, rfl⟩ := Option.map_eq_some_iff.mp h
  obtain ⟨hend, hstart, -, -⟩ := pageinit_eq hg
  refine ⟨g, hg, Booted.foldl _ ⟨?_, fun _ => rfl, rfl, rfl, rfl⟩ ?_ ?_⟩
  · constructor
    · show Sems.Permits _ _ _ (inside (At MmPc.Pays fun _ => MmPc.user))
      rw [inside_none id]
      exact ⟨rfl, fun _ hp => absurd hp List.not_mem_nil, List.nodup_nil, rfl⟩
    · show Sems.Permits _ _ _ (inside (At MmPc.Locks fun _ => MmPc.user))
      rw [inside_none id]
      exact ⟨rfl, fun _ hp => absurd hp List.not_mem_nil, List.nodup_nil, rfl⟩
    · exact fun _ hi => absurd hi List.not_mem_nil
    · exact Nat.zero_le _
    · exact nofun
    · exact nofun
    · intro o f ho
      cases o with
      | desc d => exact absurd ho.1 Bool.false_ne_true
      | handler i => exact False.elim ho
    · intro o o' f ho
      cases o with
      | desc d => exact absurd ho.1 Bool.false_ne_true
      | handler i => exact False.elim ho
  · show g.pf_start + MAXFRAMES < 2 ^ 15
    simp only [MAXFRAMES]
    omega
  · show 0 + (List.finRange MAXTPROC).length ≤ MAXFRAMES
    decide

-- What the run so far has kept.
structure Running (l : Linker) (g : Frames) (s : Memory) : Prop where
  isolated : s.Isolated
  start : s.pf_start = g.pf_start
  kernel : s.kernel_mode_pd_table = kernelPage l g
  cron : s.cron_pd_table = cronPage l g

theorem Running.below (h : Running l g s) (hg : pageinit l = some g) :
    s.pf_start + MAXFRAMES < 2 ^ 15 := by
  obtain ⟨hend, hstart, -, -⟩ := pageinit_eq hg
  rw [h.start, hstart]
  simp only [MAXFRAMES]
  omega

theorem Running.step (h : Running l g s) (hg : pageinit l = some g)
    (hs : Memory.step a s = some s') : Running l g s' := by
  obtain ⟨hstart', hkernel, hcron⟩ := step_tables hs
  exact ⟨h.isolated.step (h.below hg) hs, hstart'.trans h.start, hkernel.trans h.kernel,
    hcron.trans h.cron⟩

theorem Booted.running (h : Booted l g s) : Running l g s :=
  ⟨h.isolated, h.start, h.kernel, h.cron⟩

theorem Running.run {as : List MmAction} (h : Running l g s₀) (hg : pageinit l = some g)
    (hrun : Memory.run as s₀ = some s) : Running l g s :=
  Runs.run_preserves (fun _ _ _ hrunning hs => hrunning.step hg hs) h hrun

end Boot

-- No frame is used twice, by T-processes or by the support level.
structure Separate (s : Memory) : Prop where
  frames : ∀ d d', (s.pd d).pd_p = true → (s.pd d').pd_p = true →
    (s.pd d).pd_frame = (s.pd d').pd_frame → d = d'
  kernel : ∀ d i pgFrame, (s.pd d).pd_p = true → (s.kernel_mode_pd_table i pgFrame).pd_p = true →
    (s.pd d).pd_frame ≠ (s.kernel_mode_pd_table i pgFrame).pd_frame
  cron : ∀ d pgFrame, (s.pd d).pd_p = true → (s.cron_pd_table pgFrame).pd_p = true →
    (s.pd d).pd_frame ≠ (s.cron_pd_table pgFrame).pd_frame

theorem Running.separate (h : Running l g s) (hg : pageinit l = some g) : s.Separate := by
  have hrange : ∀ d, (s.pd d).pd_p = true → g.pf_start ≤ (s.pd d).pd_frame := by
    intro d hd
    have hrange := h.isolated.range (.desc d) _ ⟨hd, rfl⟩
    rw [h.start] at hrange
    exact hrange.1
  constructor
  · intro d d' hd hd' heq
    exact Owner.desc.inj (h.isolated.unique (.desc d) (.desc d') _ ⟨hd, rfl⟩ ⟨hd', heq.symm⟩)
  · intro d i pgFrame hd hp
    rw [h.kernel] at hp ⊢
    have hlow := kernelPage_lt hg hp
    have hhigh := hrange d hd
    omega
  · intro d pgFrame hd hp
    rw [h.cron] at hp ⊢
    have hlow := cronPage_lt hg hp
    have hhigh := hrange d hd
    omega

theorem run_separate {as : List MmAction} (hboot : p1 l = some s₀) (h : run as s₀ = some s) :
    s.Separate := by
  obtain ⟨g, hg, hbooted⟩ := p1_booted hboot
  exact (hbooted.running.run hg h).separate hg

-- Two handlers at a time, one for a page of its own and one for a shared page.
def small : Linker where
  startt1 := 0x3000
  etext := 0x4800
  startd1 := 0x4800
  edata := 0x5000
  startb1 := 0x5000
  end_ := 0x6a00
  text := by decide
  text_data := by decide
  data := by decide
  data_bss := by decide
  bss := by decide

def faults : List MmAction :=
  [.fault 0 PAGEMISS 1 30, .fault 1 PAGEMISS 2 5, .handle 0, .handle 1, .handle 0, .handle 1] ++
    List.replicate 4 (.handle 0) ++ List.replicate 4 (.handle 1) ++
    List.replicate 3 (.handle 0) ++ List.replicate 3 (.handle 1)

theorem run_separate_sample :
    ∃ s₀ s, p1 small = some s₀ ∧ run faults s₀ = some s ∧ s.Separate := by
  have hsome : ((p1 small).bind (run faults)).isSome = true := by decide +kernel
  obtain ⟨s, hs⟩ := Option.isSome_iff_exists.mp hsome
  obtain ⟨s₀, hboot, h⟩ := Option.bind_eq_some_iff.mp hs
  exact ⟨s₀, s, hboot, h, run_separate hboot h⟩

end Memory

end Hoca.Support
