import Hoca.Support.Progress
import Hoca.Support.Lines

namespace Hoca.Support

open Semaphores

def MmAction.actor : MmAction → Term
  | .fault i _ _ _ => i
  | .handle i => i

-- The T-process waits for its terminal.
def CallPc.Waits : CallPc → Prop
  | .readWait _ => True
  | .writeWait => True
  | _ => False

section Handlers

variable {m m' : Memory} {b : MmAction} {i k : Term} {a : BitVec 32} {right : BitVec 3}

theorem Memory.step_handler (hs : Memory.step b m = some m') (hk : k ≠ b.actor) :
    m'.handler k = m.handler k := by
  cases b with
  | fault i typ seg pg =>
      obtain ⟨-, -, rfl⟩ := Memory.step_fault hs
      exact Function.update_of_ne hk ..
  | handle i =>
      obtain ⟨-, -, hs⟩ := Memory.step_handle hs
      obtain ⟨pc, hpc, -⟩ := Memory.handle_frames hs
      rw [hpc]
      exact Function.update_of_ne hk ..

-- An address whose page is missing can be trapped on.
theorem Memory.translate_missing (hright : right = READ ∨ right = WRITE)
    (h : m.translate (SUPPORT_SYS_TRAP_NEW_STATE i) right a = .error PAGEMISS) :
    m.Missing i (v_seg a % 16) (v_page a) := by
  have habsent : ∀ {table : PageTable} {len : ℕ},
      (SUPPORT_SYS_TRAP_NEW_STATE i).s_crp (v_seg a) = ⟨true, 7, len, some table⟩ →
      (m.descriptor table (v_page a)).pd_p = false := by
    intro table len hsd
    rw [Memory.translate_eq hsd hright] at h
    by_cases hpage : v_page a < len
    · rw [if_pos hpage] at h
      by_cases hp : (m.descriptor table (v_page a)).pd_p = true
      · rw [if_pos hp] at h
        cases h
      · exact eq_false_of_ne_true hp
    · rw [if_neg hpage] at h
      cases h
  have hsd : (SUPPORT_SYS_TRAP_NEW_STATE i).s_crp (v_seg a) = kernel_mode_sd_table i (v_seg a) := rfl
  unfold kernel_mode_sd_table at hsd
  have hseg : v_seg a < 3 := by
    by_contra hseg
    rw [if_neg (by omega), if_neg (by omega), if_neg (by omega)] at hsd
    unfold Memory.translate at h
    dsimp only at h
    rw [hsd] at h
    cases h
  intro hpage
  constructor
  · intro hone
    have hone : v_seg a = 1 := by omega
    rw [if_neg (by omega), if_pos hone] at hsd
    have hp := habsent hsd
    rw [Memory.descriptor, dif_pos hpage] at hp
    exact hp
  · intro htwo
    have htwo : v_seg a = 2 := by omega
    rw [if_neg (by omega), if_neg (by omega), if_pos htwo] at hsd
    have hp := habsent hsd
    rw [Memory.descriptor, dif_pos hpage] at hp
    exact hp

end Handlers

namespace Terminals

variable {p : Image} {g : Frames} {s s' : Terminals} {a : TerminalAction} {i k : Term}
  {x : Access} {right : BitVec 3} {next : CallPc}

-- A step is one of the handler of its T-process, which does not wait for its
-- terminal then, or it changes where the T-process is in its call.
theorem step_turn (hs : Terminals.step p a s = some s') :
    (s'.call = s.call ∧ ∃ b : MmAction, b.actor = a.actor ∧ s.memory.step b = some s'.memory ∧
      (b = .handle a.actor ∨ ¬ (s.call a.actor).Waits)) ∨
    s'.memory = s.memory ∧ (s.Runs a.actor ∨ (s.call a.actor).Waits) ∧
      ∃ pc, s'.call = Function.update s.call a.actor pc ∧ (pc.Waits → s.Runs a.actor) := by
  unfold Terminals.step at hs
  split at hs
  · cases hs
  · split at hs
    · next i typ seg pg =>
      split at hs
      · next hpc =>
        obtain ⟨m, hm, rfl⟩ := Option.map_eq_some_iff.mp hs
        refine Or.inl ⟨rfl, _, rfl, hm, Or.inr ?_⟩
        show ¬ (s.call i).Waits
        rw [hpc]
        exact id
      · cases hs
    · obtain ⟨m, hm, rfl⟩ := Option.map_eq_some_iff.mp hs
      exact Or.inl ⟨rfl, _, rfl, hm, Or.inl rfl⟩
    · split at hs
      · next hpc =>
        cases hs
        exact Or.inr ⟨rfl, Or.inl hpc.2, _, rfl, fun _ => hpc.2⟩
      · cases hs
    · split at hs
      · next hpc =>
        cases hs
        exact Or.inr ⟨rfl, Or.inl hpc.2, _, rfl, fun _ => hpc.2⟩
      · cases hs
    · split at hs
      · next hpc =>
        cases hs
        exact Or.inr ⟨rfl, Or.inr (hpc ▸ trivial), _, rfl, False.elim⟩
      · cases hs
    · split at hs
      · next hpc =>
        cases hs
        exact Or.inr ⟨rfl, Or.inr (hpc ▸ trivial), _, rfl, False.elim⟩
      · cases hs
    · next i =>
      split at hs
      · next hrun =>
        have hreach : ∀ {x right next}, ¬ (s.call i).Waits → s.reach p i x right next = some s' →
            (s'.call = s.call ∧ ∃ b : MmAction, b.actor = i ∧ s.memory.step b = some s'.memory ∧
              (b = .handle i ∨ ¬ (s.call i).Waits)) ∨
            s'.memory = s.memory ∧ (s.Runs i ∨ (s.call i).Waits) ∧
              ∃ pc, s'.call = Function.update s.call i pc ∧ (pc.Waits → s.Runs i) := by
          intro x right next hpc hs
          unfold Terminals.reach at hs
          split at hs
          · obtain ⟨m, hm, rfl⟩ := Option.map_eq_some_iff.mp hs
            exact Or.inl ⟨rfl, _, rfl, hm, Or.inr hpc⟩
          · cases hs
            exact Or.inr ⟨rfl, Or.inl hrun, next, rfl, fun _ => hrun⟩
        unfold Terminals.go at hs
        split at hs
        · next c va n j hpc =>
          split at hs
          · exact hreach (hpc ▸ id) hs
          · cases hs
            obtain ⟨hcall, hm⟩ := Terminals.finish_call (s := s) i c va n
            exact Or.inr ⟨hm, Or.inl hrun, _, hcall, fun _ => hrun⟩
        · next c va n j hpc =>
          split at hs
          · exact hreach (hpc ▸ id) hs
          · cases hs
        · cases hs
      · cases hs

theorem step_other (hs : Terminals.step p a s = some s') (hk : k ≠ a.actor) :
    s'.call k = s.call k ∧ s'.memory.handler k = s.memory.handler k := by
  rcases step_turn hs with ⟨hcall, b, hb, hm, -⟩ | ⟨hm, -, pc, hcall, -⟩
  · exact ⟨congrFun hcall k, Memory.step_handler hm (hb ▸ hk)⟩
  · rw [hcall, hm]
    exact ⟨Function.update_of_ne hk .., rfl⟩

-- Who waits for a terminal is not in the handler.
def Calm (s : Terminals) : Prop := ∀ i, (s.call i).Waits → s.Runs i

theorem Calm.step (h : s.Calm) (hs : Terminals.step p a s = some s') : s'.Calm := by
  intro k hk
  show s'.memory.handler k = .user
  by_cases hka : k = a.actor
  · subst hka
    rcases step_turn hs with ⟨hcall, b, -, hm, hb⟩ | ⟨hm, -, pc, hcall, hpc⟩
    · rw [hcall] at hk
      rcases hb with rfl | hb
      · have hhandle := (Memory.step_handle hm).2.2
        have huser : s.memory.handler a.actor = .user := h _ hk
        simp only [Memory.handle, huser] at hhandle
        cases hhandle
      · exact absurd hk hb
    · rw [hcall, Function.update_self] at hk
      rw [hm]
      exact hpc hk
  · obtain ⟨hcall, hhandler⟩ := step_other hs hka
    rw [hcall] at hk
    rw [hhandler]
    exact h k hk

-- Who waits for a frame takes no step.
theorem Calm.stops (h : s.Calm) (hq : Proc.term a.actor ∈ s.memory.sems.queue .sem_pf)
    (huser : s.memory.handler a.actor ≠ .user) : Terminals.step p a s = none := by
  by_contra hne
  obtain ⟨s', hs⟩ := Option.ne_none_iff_exists'.mp hne
  rcases step_turn hs with ⟨-, b, hb, hm, -⟩ | ⟨-, hrun, -⟩
  · cases b with
    | fault i typ seg pg =>
        obtain ⟨hpc, -, -⟩ := Memory.step_fault hm
        exact huser (hb ▸ hpc)
    | handle i =>
        obtain rfl : i = a.actor := hb
        exact (Memory.step_handle hm).1 hq
  · exact huser (hrun.elim id (h _))

-- A copy loop that keeps to the T-process and its buffer does not go astray.
theorem step_astray (h : Fenced p g s) (hmeets : Support.Meets s a)
    (hs : Terminals.step p a s = some s') : s'.astray = false := by
  unfold Terminals.step at hs
  split at hs
  · cases hs
  · next hno =>
    have hno : s.astray = false := eq_false_of_ne_true hno
    have hreach : ∀ {i x right next}, s.reach p i x right next = some s' →
        (∀ f, s.memory.translate (SUPPORT_SYS_TRAP_NEW_STATE i) right x.address = .ok f →
          x.Within p i) → s'.astray = false := by
      intro i x right next hs hwithin
      unfold Terminals.reach at hs
      split at hs
      · obtain ⟨m, -, rfl⟩ := Option.map_eq_some_iff.mp hs
        exact hno
      · next f hok =>
        cases hs
        exact decide_eq_false fun hc => hc.2 (hwithin f hok)
    split at hs
    · split at hs
      · obtain ⟨m, -, rfl⟩ := Option.map_eq_some_iff.mp hs
        exact hno
      · cases hs
    · obtain ⟨m, -, rfl⟩ := Option.map_eq_some_iff.mp hs
      exact hno
    · split at hs
      · cases hs
        exact hno
      · cases hs
    · split at hs
      · cases hs
        exact hno
      · cases hs
    · split at hs
      · cases hs
        exact hno
      · cases hs
    · split at hs
      · cases hs
        exact hno
      · cases hs
    · next i =>
      have hkept := h.kept i
      have hover : ¬ (s.call i).Overruns := hmeets
      split at hs
      · unfold Terminals.go at hs
        split at hs
        · next c va n j hpc =>
          rw [hpc] at hs hkept hover
          split at hs
          · next x right hacc => exact hreach hs fun f hok => (hkept.load hacc hover hok).1
          · cases hs
            cases c with
            | readfromterminal d2 => exact hno
            | writetoterminal => exact hno
        · next c va n j hpc =>
          rw [hpc] at hs hkept hover
          split at hs
          · next x right hacc => exact hreach hs fun f hok => (hkept.store hacc hover hok).1
          · cases hs
        · cases hs
      · cases hs

-- A T-process that runs can take the next step of its copy loop, or traps.
theorem reach_isSome (hrun : s.Runs i) (hright : right = READ ∨ right = WRITE) :
    (s.reach p i x right next).isSome := by
  unfold Terminals.reach
  split
  · next typ htyp =>
    rw [Option.isSome_map]
    have hmissing : typ = PAGEMISS → s.memory.Missing i (v_seg x.address % 16) (v_page x.address) := by
      rintro rfl
      exact Memory.translate_missing hright htyp
    rw [Memory.step, if_pos ⟨hrun, hmissing⟩]
    rfl
  · rfl

theorem go_isSome (hno : s.astray = false) (hrun : s.Runs i) (huser : s.call i ≠ .user)
    (hwait : ¬ (s.call i).Waits) : (Terminals.step p (.go i) s).isSome := by
  rw [Terminals.step, hno, if_neg Bool.false_ne_true, if_pos hrun]
  unfold Terminals.go
  split
  · next c va n j hpc =>
    split
    · next x right hacc => exact reach_isSome hrun (access_right hacc)
    · rfl
  · next c va n j hpc =>
    split
    · next x right hacc => exact reach_isSome hrun (access_right hacc)
    · next hacc =>
      rw [hpc] at hacc
      cases c with
      | readfromterminal d2 => cases hacc
      | writetoterminal => cases hacc
  · next hload hstore =>
    exfalso
    cases hpc : s.call i with
    | load c va n j => exact hload c va n j hpc
    | store c va n j => exact hstore c va n j hpc
    | user => exact huser hpc
    | readWait va => exact hwait (hpc ▸ trivial)
    | writeWait => exact hwait (hpc ▸ trivial)

end Terminals

theorem Lines.step_terminals {p : Image} {s s' : Lines} {a : LineAction}
    (hs : Lines.step p a s = some s') :
    (∃ b : TerminalAction, b.actor = a.actor ∧
      Terminals.step p b s.terminals = some s'.terminals) ∨
    s.terminals.Runs a.actor ∧ s'.terminals = s.terminals := by
  unfold Lines.step at hs
  split at hs
  · obtain ⟨t, ht, rfl⟩ := Option.map_eq_some_iff.mp hs
    exact Or.inl ⟨_, rfl, ht⟩
  · obtain ⟨t, ht, rfl⟩ := Option.map_eq_some_iff.mp hs
    exact Or.inl ⟨_, rfl, ht⟩
  · obtain ⟨t, ht, rfl⟩ := Option.map_eq_some_iff.mp hs
    exact Or.inl ⟨_, rfl, ht⟩
  · split at hs
    · next hc =>
      split at hs
      · cases hs
        exact Or.inr ⟨hc.2.2, rfl⟩
      · cases hs
    · cases hs

-- What a step does to the tables and the semaphores of the frames is a step of a handler.
theorem Lines.step_memory {p : Image} {s s' : Lines} {a : LineAction}
    (hs : Lines.step p a s = some s') :
    s'.terminals.memory = s.terminals.memory ∨
      ∃ b, s.terminals.memory.step b = some s'.terminals.memory := by
  rcases Lines.step_terminals hs with ⟨b, -, ht⟩ | ⟨-, heq⟩
  · exact (Terminals.step_frame ht).2
  · exact Or.inl (congrArg Terminals.memory heq)

-- D2 is for the caller.
theorem Terminals.step_result {p : Image} {s s' : Terminals} {a : TerminalAction} {k : Term}
    (hs : Terminals.step p a s = some s') (hk : k ≠ a.actor) : s'.d2 k = s.d2 k := by
  unfold Terminals.step at hs
  split at hs
  · cases hs
  · split at hs
    · split at hs
      · obtain ⟨m, -, rfl⟩ := Option.map_eq_some_iff.mp hs
        rfl
      · cases hs
    · obtain ⟨m, -, rfl⟩ := Option.map_eq_some_iff.mp hs
      rfl
    · split at hs
      · cases hs
        rfl
      · cases hs
    · split at hs
      · cases hs
        rfl
      · cases hs
    · split at hs
      · cases hs
        rfl
      · cases hs
    · split at hs
      · cases hs
        exact Function.update_of_ne hk ..
      · cases hs
    · next i =>
      have hreach : ∀ {x right next}, s.reach p i x right next = some s' → s'.d2 k = s.d2 k := by
        intro x right next hs
        unfold Terminals.reach at hs
        split at hs
        · obtain ⟨m, -, rfl⟩ := Option.map_eq_some_iff.mp hs
          rfl
        · cases hs
          rfl
      split at hs
      · unfold Terminals.go at hs
        split at hs
        · next c va n j hpc =>
          split at hs
          · exact hreach hs
          · cases hs
            cases c with
            | readfromterminal r2 => exact Function.update_of_ne hk ..
            | writetoterminal => rfl
        · split at hs
          · exact hreach hs
          · cases hs
        · cases hs
      · cases hs

-- While a T-process is counted, cron does not end.
theorem System.step_ends {s s' : System} {a : Action} (hs : System.step a s = some s')
    (hcount : s.active_t_processes ≠ 0) (hends : ¬ s.cron.Ends) : ¬ s'.cron.Ends := by
  cases a with
  | tick =>
      rw [System.step_tick hs]
      exact hends
  | cron =>
      have hcron := (System.step_cron hs).2
      unfold System.cronStep at hcron
      split at hcron
      case h_1 =>
        cases hcron
        split
        · exact id
        · exact id
      case h_3 =>
        cases hcron
        rw [if_neg hcount]
        exact id
      case h_4 hpc =>
        rw [hpc] at hends
        exact absurd trivial hends
      case h_8 j b t hpc =>
        cases hcron
        split
        · exact id
        · exact System.next_ends j b
      case h_9 j b t hpc =>
        cases hcron
        split
        · exact id
        · exact System.next_ends j b
      case h_11 j b hpc =>
        cases hcron
        exact System.next_ends j true
      all_goals cases hcron
      all_goals exact id
  | term i =>
      have hterm := (System.step_term hs).2.2
      unfold System.termStep at hterm
      split at hterm
      all_goals cases hterm
      all_goals exact hends
  | delay i d =>
      obtain ⟨-, rfl⟩ := System.step_delay hs
      exact hends
  | terminate i =>
      obtain ⟨-, rfl⟩ := System.step_terminate hs
      exact hends

def Lines.withD2 (s : Lines) (d2 : Term → BitVec 32) : Lines :=
  { s with terminals := { s.terminals with d2 := d2 } }

section Results

variable {p : Image} {i : Term} (d2 : Term → BitVec 32)

theorem Terminals.reach_d2 {s s' : Terminals} {x : Access} {right : BitVec 3} {next : CallPc}
    (hs : s.reach p i x right next = some s') :
    Terminals.reach p i x right next { s with d2 := d2 } = some { s' with d2 := d2 } := by
  unfold Terminals.reach at hs ⊢
  cases ht : s.memory.translate (SUPPORT_SYS_TRAP_NEW_STATE i) right x.address with
  | error typ =>
      rw [ht] at hs
      obtain ⟨m, hm, rfl⟩ := Option.map_eq_some_iff.mp hs
      simp only [hm, Option.map_some]
  | ok f =>
      rw [ht] at hs
      cases hs
      rfl

theorem Terminals.finish_d2 (s : Terminals) (c : Loop) (va : BitVec 32) (n : ℕ) :
    ∃ d2', Terminals.finish i c va n { s with d2 := d2 } = { s.finish i c va n with d2 := d2' } := by
  cases c with
  | readfromterminal r2 => exact ⟨Function.update d2 i r2, rfl⟩
  | writetoterminal => exact ⟨d2, rfl⟩

-- No step reads D2.
theorem Terminals.step_d2 {s s' : Terminals} {a : TerminalAction}
    (hs : Terminals.step p a s = some s') :
    ∃ d2', Terminals.step p a { s with d2 := d2 } = some { s' with d2 := d2' } := by
  unfold Terminals.step at hs ⊢
  split at hs
  · cases hs
  · next hno =>
    rw [if_neg hno]
    cases a with
    | mm b =>
        cases b with
        | fault k typ seg pg =>
            dsimp only at hs ⊢
            split at hs
            · next hpc =>
              obtain ⟨m, hm, rfl⟩ := Option.map_eq_some_iff.mp hs
              rw [if_pos hpc, hm]
              exact ⟨d2, rfl⟩
            · cases hs
        | handle k =>
            obtain ⟨m, hm, rfl⟩ := Option.map_eq_some_iff.mp hs
            dsimp only
            rw [hm]
            exact ⟨d2, rfl⟩
    | sys9 k d3 =>
        dsimp only at hs ⊢
        split at hs
        · next hpc =>
          cases hs
          exact ⟨d2, if_pos hpc⟩
        · cases hs
    | sys10 k d3 d4 =>
        dsimp only at hs ⊢
        split at hs
        · next hpc =>
          cases hs
          exact ⟨d2, if_pos hpc⟩
        · cases hs
    | line k d_stat d_dadd r2 =>
        dsimp only at hs ⊢
        split at hs
        · cases hs
          exact ⟨d2, rfl⟩
        · cases hs
    | written k d_stat d_dadd =>
        dsimp only at hs ⊢
        split at hs
        · cases hs
          exact ⟨_, rfl⟩
        · cases hs
    | go k =>
        dsimp only at hs ⊢
        split at hs
        · next hrun =>
          refine (if_pos hrun).symm ▸ ?_
          unfold Terminals.go at hs ⊢
          cases hpc : s.call k with
          | load c va n j =>
              simp only [hpc] at hs ⊢
              split at hs
              · next x right hacc => exact ⟨d2, Terminals.reach_d2 d2 hs⟩
              · next hacc =>
                cases hs
                obtain ⟨d2', hd⟩ := Terminals.finish_d2 (i := k) d2 s c va n
                exact ⟨d2', congrArg some hd⟩
          | store c va n j =>
              simp only [hpc] at hs ⊢
              split at hs
              · next x right hacc => exact ⟨d2, Terminals.reach_d2 d2 hs⟩
              · cases hs
          | user =>
              rw [hpc] at hs
              cases hs
          | readWait va =>
              rw [hpc] at hs
              cases hs
          | writeWait =>
              rw [hpc] at hs
              cases hs
        · cases hs

theorem Lines.transfer_d2 (s : Lines) :
    (s.withD2 d2).transfer p i = (s.transfer p i).withD2 d2 := by
  unfold Lines.transfer Lines.withD2
  cases hacc : (s.terminals.call i).access p i with
  | none => rfl
  | some access =>
      dsimp only
      cases ht : s.terminals.memory.translate (SUPPORT_SYS_TRAP_NEW_STATE i) access.2
        access.1.address with
      | error typ => rfl
      | ok f =>
          dsimp only
          split
          · rfl
          · rfl

theorem Lines.meets_d2 {s : Lines} {a : LineAction} :
    Lines.Meets (s.withD2 d2) a ↔ Lines.Meets s a := by
  cases a with
  | call b => cases b <;> exact Iff.rfl
  | line k input d_stat d_dadd r2 => exact Iff.rfl
  | store k a c => exact Iff.rfl

theorem Lines.step_d2 {s s' : Lines} {a : LineAction} (hs : Lines.step p a s = some s') :
    ∃ d2', Lines.step p a (s.withD2 d2) = some (s'.withD2 d2') := by
  unfold Lines.step at hs
  split at hs
  · next k =>
    obtain ⟨t, ht, rfl⟩ := Option.map_eq_some_iff.mp hs
    obtain ⟨d2', hd⟩ := Terminals.step_d2 d2 ht
    refine ⟨d2', ?_⟩
    change (Terminals.step p (.go k) { s.terminals with d2 := d2 }).map _ = _
    rw [hd, Lines.transfer_d2]
    rfl
  · next b hgo =>
    obtain ⟨t, ht, rfl⟩ := Option.map_eq_some_iff.mp hs
    obtain ⟨d2', hd⟩ := Terminals.step_d2 d2 ht
    refine ⟨d2', ?_⟩
    rw [Lines.step]
    · change (Terminals.step p b { s.terminals with d2 := d2 }).map _ = _
      rw [hd]
      rfl
    · exact hgo
  · next k input d_stat d_dadd r2 =>
    obtain ⟨t, ht, rfl⟩ := Option.map_eq_some_iff.mp hs
    obtain ⟨d2', hd⟩ := Terminals.step_d2 d2 ht
    refine ⟨d2', ?_⟩
    change (Terminals.step p (.line k d_stat d_dadd r2) { s.terminals with d2 := d2 }).map _ = _
    rw [hd]
    rfl
  · next k a c =>
    split at hs
    · next hc =>
      split at hs
      · next f hok =>
        cases hs
        have hok' : (s.withD2 d2).terminals.memory.translate (terminalProcessState k) WRITE a =
            .ok f := hok
        refine ⟨d2, (if_pos hc).trans ?_⟩
        rw [hok']
        rfl
      · cases hs
    · cases hs

end Results

-- A T-process leaves its program for delay and terminate only.
theorem System.step_user {s s' : System} {a : Action} {i : Term} (hborn : s.Born)
    (hs : System.step a s = some s') (hi : s.term i = .user) (hi' : s'.term i ≠ .user) :
    (∃ d, a = .delay i d) ∨ a = .terminate i := by
  have hother : ∀ {k pc}, s'.term = Function.update s.term k pc → k ≠ i → s'.term i = .user := by
    intro k pc hterm hk
    rw [hterm, Function.update_of_ne (Ne.symm hk)]
    exact hi
  cases a with
  | tick =>
      rw [System.step_tick hs] at hi'
      exact absurd hi hi'
  | cron =>
      have hcron := (System.step_cron hs).2
      exfalso
      unfold System.cronStep at hcron
      split at hcron
      case h_1 j hj =>
        cases hcron
        refine hi' (hother rfl fun hji => ?_)
        have hunborn := hborn j j hj le_rfl
        rw [hji, hi] at hunborn
        cases hunborn
      all_goals cases hcron
      all_goals exact hi' hi
  | term k =>
      have hterm := (System.step_term hs).2.2
      exfalso
      have hk : k ≠ i := by
        rintro rfl
        simp only [System.termStep, hi] at hterm
        cases hterm
      unfold System.termStep at hterm
      split at hterm
      all_goals cases hterm
      all_goals exact hi' (hother rfl hk)
  | delay k d =>
      obtain ⟨-, rfl⟩ := System.step_delay hs
      by_cases hk : k = i
      · exact Or.inl ⟨d, hk ▸ rfl⟩
      · exact absurd (hother rfl hk) hi'
  | terminate k =>
      obtain ⟨-, rfl⟩ := System.step_terminate hs
      by_cases hk : k = i
      · exact Or.inr (hk ▸ rfl)
      · exact absurd (hother rfl hk) hi'

end Hoca.Support
