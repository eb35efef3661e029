import Hoca.Support.Faults

namespace Hoca.Support

-- The byte of physical memory behind a virtual address on a page with this frame.
def physical (f : ℕ) (a : BitVec 32) : ℕ := f * PAGESIZE + a.toNat % PAGESIZE

-- The terminal calls with the bytes they move: of the memory, the pages and the
-- buffers are followed. The copy loop of a T-process has loaded one.
structure Lines where
  terminals : Terminals
  bytes : Bytes
  loaded : Term → BitVec 8

-- A step of the calls, a line that a terminal has put into the buffer when SYS8
-- returns to readfromterminal, or a store of a T-process in its program.
inductive LineAction where
  | call (a : TerminalAction)
  | line (i : Term) (input : ℕ → BitVec 8) (d_stat d_dadd r2 : BitVec 32)
  | store (i : Term) (a : BitVec 32) (c : BitVec 8)

namespace Lines

-- The load or store that a copy loop is at, if it does not trap.
def transfer (p : Image) (i : Term) (s : Lines) : Lines :=
  match (s.terminals.call i).access p i with
  | some (x, right) =>
      match s.terminals.memory.translate (SUPPORT_SYS_TRAP_NEW_STATE i) right x.address with
      | .ok f =>
          if right = READ then
            { s with loaded := Function.update s.loaded i (s.bytes (physical f x.address)) }
          else { s with bytes := s.bytes.set (physical f x.address) (s.loaded i) }
      | .error _ => s
  | none => s

-- What the terminal leaves in the buffer, the bytes it has not written included.
def deliver (p : Image) (i : Term) (input : ℕ → BitVec 8) (m : Bytes) : Bytes := fun a =>
  if p.io_buffer i ≤ a ∧ a < p.io_buffer i + 512 then input (a - p.io_buffer i) else m a

def step (p : Image) (a : LineAction) (s : Lines) : Option Lines :=
  match a with
  | .call (.go i) =>
      (Terminals.step p (.go i) s.terminals).map fun t => { s.transfer p i with terminals := t }
  | .call a => (Terminals.step p a s.terminals).map fun t => { s with terminals := t }
  | .line i input d_stat d_dadd r2 =>
      (Terminals.step p (.line i d_stat d_dadd r2) s.terminals).map fun t => { s with
        terminals := t
        bytes := deliver p i input s.bytes }
  | .store i a c =>
      if s.terminals.astray = false ∧ s.terminals.call i = .user ∧ s.terminals.Runs i then
        match s.terminals.memory.translate (terminalProcessState i) WRITE a with
        | .ok f => some { s with bytes := s.bytes.set (physical f a) c }
        | .error _ => none
      else none

-- What a T-process finds at an address of its own.
def byte (s : Lines) (i : Term) (a : BitVec 32) : Option (BitVec 8) :=
  match s.terminals.memory.translate (terminalProcessState i) READ a with
  | .ok f => some (s.bytes (physical f a))
  | .error _ => none

-- The T-processes are in their programs.
def begin (m : Memory) (bytes : Bytes) : Lines where
  terminals := Terminals.begin m
  bytes := bytes
  loaded _ := 0

def Meets (s : Lines) : LineAction → Prop
  | .call a => Support.Meets s.terminals a
  | .line i _ d_stat d_dadd r2 => Support.Meets s.terminals (.line i d_stat d_dadd r2)
  | .store _ _ _ => True

instance (s : Lines) : DecidablePred (Meets s)
  | .call a => inferInstanceAs (Decidable (Support.Meets s.terminals a))
  | .line i _ d_stat d_dadd r2 =>
      inferInstanceAs (Decidable (Support.Meets s.terminals (.line i d_stat d_dadd r2)))
  | .store _ _ _ => isTrue trivial

end Lines

def TerminalAction.actor : TerminalAction → Term
  | .mm (.fault i _ _ _) => i
  | .mm (.handle i) => i
  | .sys9 i _ => i
  | .sys10 i _ _ => i
  | .line i _ _ _ => i
  | .written i _ _ => i
  | .go i => i

def LineAction.actor : LineAction → Term
  | .call a => a.actor
  | .line i _ _ _ _ => i
  | .store i _ _ => i

-- Where a T-process is after a copy loop.
def Loop.after : Loop → CallPc
  | .readfromterminal _ => .user
  | .writetoterminal => .writeWait

section Terminals

variable {p : Image} {s s' : Terminals} {a : TerminalAction} {i k : Term}

theorem Terminals.reach_cases {x : Access} {right : BitVec 3} {next : CallPc}
    (hs : s.reach p i x right next = some s') :
    (∃ typ, s.memory.translate (SUPPORT_SYS_TRAP_NEW_STATE i) right x.address = .error typ ∧
      s'.call = s.call ∧ ∃ b, s.memory.step b = some s'.memory) ∨
    ∃ f, s.memory.translate (SUPPORT_SYS_TRAP_NEW_STATE i) right x.address = .ok f ∧
      s'.call = Function.update s.call i next ∧ s'.memory = s.memory := by
  unfold Terminals.reach at hs
  split at hs
  · next typ herror =>
    obtain ⟨m, hm, rfl⟩ := Option.map_eq_some_iff.mp hs
    exact Or.inl ⟨typ, herror, rfl, _, hm⟩
  · next f hok =>
    cases hs
    exact Or.inr ⟨f, hok, rfl, rfl⟩

theorem Terminals.finish_call (i : Term) (c : Loop) (va : BitVec 32) (n : ℕ) :
    (s.finish i c va n).call = Function.update s.call i c.after ∧
      (s.finish i c va n).memory = s.memory := by
  cases c with
  | readfromterminal d2 => exact ⟨rfl, rfl⟩
  | writetoterminal => exact ⟨rfl, rfl⟩

-- A step changes the point of its T-process only, and the memory by a step of the
-- fault handlers.
theorem Terminals.step_frame (hs : Terminals.step p a s = some s') :
    (∀ k, k ≠ a.actor → s'.call k = s.call k) ∧
      (s'.memory = s.memory ∨ ∃ b, s.memory.step b = some s'.memory) := by
  have hother : ∀ (i : Term) (pc : CallPc) (k : Term), k ≠ i →
      Function.update s.call i pc k = s.call k := fun i pc k hk => Function.update_of_ne hk ..
  unfold Terminals.step at hs
  split at hs
  · cases hs
  · split at hs
    · split at hs
      · obtain ⟨m, hm, rfl⟩ := Option.map_eq_some_iff.mp hs
        exact ⟨fun _ _ => rfl, Or.inr ⟨_, hm⟩⟩
      · cases hs
    · obtain ⟨m, hm, rfl⟩ := Option.map_eq_some_iff.mp hs
      exact ⟨fun _ _ => rfl, Or.inr ⟨_, hm⟩⟩
    · split at hs
      · cases hs
        exact ⟨hother _ _, Or.inl rfl⟩
      · cases hs
    · split at hs
      · cases hs
        exact ⟨hother _ _, Or.inl rfl⟩
      · cases hs
    · split at hs
      · cases hs
        exact ⟨hother _ _, Or.inl rfl⟩
      · cases hs
    · split at hs
      · cases hs
        exact ⟨hother _ _, Or.inl rfl⟩
      · cases hs
    · next i =>
      split at hs
      · have hreach : ∀ {x right next}, s.reach p i x right next = some s' →
            (∀ k, k ≠ i → s'.call k = s.call k) ∧
              (s'.memory = s.memory ∨ ∃ b, s.memory.step b = some s'.memory) := by
          intro x right next hs
          rcases Terminals.reach_cases hs with ⟨typ, -, hcall, hm⟩ | ⟨f, -, hcall, hm⟩
          · exact ⟨fun k _ => congrFun hcall k, Or.inr hm⟩
          · exact ⟨fun k hk => (congrFun hcall k).trans (hother i next k hk), Or.inl hm⟩
        unfold Terminals.go at hs
        split at hs
        · next c va n j hpc =>
          split at hs
          · exact hreach hs
          · cases hs
            obtain ⟨hcall, hm⟩ := Terminals.finish_call (s := s) i c va n
            exact ⟨fun k hk => (congrFun hcall k).trans (hother i c.after k hk), Or.inl hm⟩
        · split at hs
          · exact hreach hs
          · cases hs
        · cases hs
      · cases hs

end Terminals

section Physical

variable {p : Image} {g : Frames} {m m' : Memory} {i k : Term} {right : BitVec 3} {a a' : BitVec 32}
  {f f' x : ℕ}

theorem physical_page (f : ℕ) (a : BitVec 32) : physical f a / PAGESIZE = f := by
  unfold physical
  simp only [PAGESIZE]
  omega

-- An address of segment 1 goes to a page of the T-process, in its program and in the
-- support level.
theorem translate_one {state : TrapState}
    (hstate : state = SUPPORT_SYS_TRAP_NEW_STATE i ∨ state = terminalProcessState i)
    (hseg : v_seg a = 1) (hright : right = READ ∨ right = WRITE) :
    m.translate state right a = .ok f ↔ ∃ h : v_page a < 32,
      (m.pd (.user i ⟨v_page a, h⟩)).pd_p = true ∧ (m.pd (.user i ⟨v_page a, h⟩)).pd_frame = f := by
  have hsd : state.s_crp (v_seg a) = ⟨true, 7, 32, some (.user i)⟩ := by
    rw [hseg]
    rcases hstate with rfl | rfl
    · rfl
    · rfl
  rw [Memory.translate_eq hsd hright]
  by_cases hpage : v_page a < 32
  · rw [if_pos hpage, Memory.descriptor, dif_pos hpage]
    by_cases hp : (m.pd (.user i ⟨v_page a, hpage⟩)).pd_p = true
    · rw [if_pos hp]
      constructor
      · exact fun h => ⟨hpage, hp, Except.ok.inj h⟩
      · rintro ⟨_, _, hf⟩
        exact congrArg Except.ok hf
    · rw [if_neg hp]
      constructor
      · intro h
        cases h
      · rintro ⟨_, hp', _⟩
        exact absurd hp' hp
  · rw [if_neg hpage]
    constructor
    · intro h
      cases h
    · rintro ⟨h, _⟩
      exact absurd h hpage

-- An address that the T-process has mapped goes to one of its pages or to a shared one.
theorem translate_mappable {state : TrapState}
    (hstate : state = SUPPORT_SYS_TRAP_NEW_STATE i ∨ state = terminalProcessState i)
    (hmap : Mappable i a) (h : m.translate state right a = .ok f) :
    ∃ d : Desc, (∀ j pg, d = .user j pg → j = i) ∧ (m.pd d).pd_p = true ∧ (m.pd d).pd_frame = f := by
  obtain ⟨hseg, hpage⟩ := mappable_iff.mp hmap
  obtain ⟨table, htable, hp, hf⟩ := Memory.translate_descriptor h
  have hcases : table = .user i ∨ table = .shared := by
    rcases hseg with hseg | hseg
    · rw [hseg] at htable
      rcases hstate with rfl | rfl
      · exact Or.inl (Option.some.inj htable).symm
      · exact Or.inl (Option.some.inj htable).symm
    · rw [hseg] at htable
      rcases hstate with rfl | rfl
      · exact Or.inr (Option.some.inj htable).symm
      · exact Or.inr (Option.some.inj htable).symm
  rcases hcases with rfl | rfl
  · rw [Memory.descriptor, dif_pos hpage] at hp hf
    exact ⟨.user i ⟨v_page a, hpage⟩, fun j pg hd => (Desc.user.inj hd).1.symm, hp, hf⟩
  · rw [Memory.descriptor, dif_pos hpage] at hp hf
    exact ⟨.shared ⟨v_page a, hpage⟩, fun j pg hd => Desc.noConfusion hd, hp, hf⟩

-- Segment 0 maps the buffers to themselves.
theorem physical_buffer
    (hk : m.kernel_mode_pd_table = Memory.kernelPage p.toLinker g) (hx : x < 2 ^ 17)
    (h : m.translate (SUPPORT_SYS_TRAP_NEW_STATE i) right (BitVec.ofNat 32 x) = .ok f) :
    physical f (BitVec.ofNat 32 x) = x := by
  have hnat : (BitVec.ofNat 32 x).toNat = x := by
    rw [BitVec.toNat_ofNat]
    exact Nat.mod_eq_of_lt (by omega)
  have hseg : v_seg (BitVec.ofNat 32 x) = 0 := by
    rw [v_seg_eq, hnat]
    omega
  have hpage : v_page (BitVec.ofNat 32 x) = x / PAGESIZE := by
    rw [v_page_eq, hnat]
    simp only [PAGESIZE]
    omega
  have hlt : x / PAGESIZE < KERNEL_PAGES := by
    simp only [PAGESIZE, KERNEL_PAGES]
    omega
  obtain ⟨table, htable, hp, hf⟩ := Memory.translate_descriptor h
  rw [hseg] at htable
  cases htable
  rw [hpage, Memory.descriptor, dif_pos hlt, hk] at hf
  have hframe : x / PAGESIZE = f := hf
  unfold physical
  rw [hnat, ← hframe]
  simp only [PAGESIZE]
  omega

-- The part of an address that the hardware looks at.
def low (a : BitVec 32) : ℕ := a.toNat % 2 ^ 24

theorem low_eq_of (hseg : v_seg a = v_seg a') (hpage : v_page a = v_page a')
    (hoffset : a.toNat % PAGESIZE = a'.toNat % PAGESIZE) : low a = low a' := by
  rw [v_seg_eq, v_seg_eq] at hseg
  rw [v_page_eq, v_page_eq] at hpage
  unfold low
  simp only [PAGESIZE] at hoffset
  omega

theorem low_add (va : BitVec 32) {b b' : ℕ} (hb : b < 2 ^ 24) (hb' : b' < 2 ^ 24)
    (h : low (va + BitVec.ofNat 32 b) = low (va + BitVec.ofNat 32 b')) : b = b' := by
  unfold low at h
  rw [BitVec.toNat_add, BitVec.toNat_add, BitVec.toNat_ofNat, BitVec.toNat_ofNat] at h
  omega

end Physical

namespace Lines

variable {p : Image} {g : Frames} {s s' : Lines} {a : LineAction} {i k : Term} {x f : ℕ}
  {v : BitVec 32} {c : BitVec 8}

-- The memory of a T-process that no other one writes: its pages and its buffer.
def Protected (p : Image) (m : Memory) (i : Term) (x : ℕ) : Prop :=
  (∃ pg, (m.pd (.user i pg)).pd_p = true ∧ (m.pd (.user i pg)).pd_frame = x / PAGESIZE) ∨
    (p.io_buffer i ≤ x ∧ x < p.io_buffer i + 512)

-- What a T-process may write.
def Written (p : Image) (m : Memory) (i : Term) (x : ℕ) : Prop :=
  (∃ d : Desc, (∀ j pg, d = .user j pg → j = i) ∧ (m.pd d).pd_p = true ∧
    (m.pd d).pd_frame = x / PAGESIZE) ∨ (p.io_buffer i ≤ x ∧ x < p.io_buffer i + 512)

structure Sound (p : Image) (g : Frames) (s : Lines) : Prop where
  fenced : Fenced p g s.terminals
  running : Memory.Running p.toLinker g s.terminals.memory
  own : s.terminals.memory.Private

theorem buffer_page (hg : pageinit p.toLinker = some g) (hx : p.io_buffer i ≤ x)
    (hx' : x < p.io_buffer i + 512) : x < 2 ^ 17 ∧ x / PAGESIZE < g.pf_start := by
  obtain ⟨hmax, hstart, -, -⟩ := Memory.pageinit_eq hg
  have hend := (Image.buffer_end p i).2
  rw [hstart]
  simp only [PAGESIZE] at hmax ⊢
  omega

theorem Sound.page_high (h : Sound p g s) {d : Desc} (hd : (s.terminals.memory.pd d).pd_p = true) :
    g.pf_start ≤ (s.terminals.memory.pd d).pd_frame := by
  have hlow := (h.running.isolated.range (.desc d) _ ⟨hd, rfl⟩).1
  rw [h.running.start] at hlow
  exact hlow

theorem Sound.not_protected (h : Sound p g s) (hg : pageinit p.toLinker = some g) (hik : i ≠ k)
    (hx : Written p s.terminals.memory k x) : ¬ Protected p s.terminals.memory i x := by
  rintro (⟨pg, hp, hf⟩ | ⟨hlow, hhigh⟩)
  · rcases hx with ⟨d, hd, hp', hf'⟩ | ⟨hlow', hhigh'⟩
    · have heq := (h.running.separate hg).frames _ _ hp' hp (hf'.trans hf.symm)
      exact hik (hd i pg heq)
    · have hpage := (buffer_page hg hlow' hhigh').2
      have hframe := h.page_high hp
      omega
  · rcases hx with ⟨d, hd, hp', hf'⟩ | ⟨hlow', hhigh'⟩
    · have hpage := (buffer_page hg hlow hhigh).2
      have hframe := h.page_high hp'
      omega
    · rw [Image.io_buffer_eq] at hlow hhigh hlow' hhigh'
      have hval : i.val ≠ k.val := fun hval => hik (Fin.ext hval)
      omega

theorem translate_mapped {m : Memory} {right : BitVec 3} {a : BitVec 32}
    (h : m.translate (terminalProcessState i) right a = .ok f) : Mappable i a := by
  obtain ⟨table, htable, hp, -⟩ := Memory.translate_descriptor h
  simp only [terminalProcessState, user_mode_sd_table] at htable
  rw [mappable_iff]
  split at htable
  · next hseg =>
    cases htable
    refine ⟨Or.inl hseg, ?_⟩
    by_contra hpage
    rw [Memory.descriptor, dif_neg hpage] at hp
    cases hp
  · split at htable
    · next hseg =>
      cases htable
      refine ⟨Or.inr hseg, ?_⟩
      by_contra hpage
      rw [Memory.descriptor, dif_neg hpage] at hp
      cases hp
    · cases htable

theorem written_pointer {m : Memory} {state : TrapState} {right : BitVec 3} {a : BitVec 32}
    (hstate : state = SUPPORT_SYS_TRAP_NEW_STATE i ∨ state = terminalProcessState i)
    (hmap : Mappable i a) (h : m.translate state right a = .ok f) : Written p m i (physical f a) := by
  obtain ⟨d, hd, hp, hf⟩ := translate_mappable hstate hmap h
  exact Or.inl ⟨d, hd, hp, hf.trans (physical_page f a).symm⟩

-- An access of a copy loop that does not trap.
theorem Sound.access (h : Sound p g s) (hg : pageinit p.toLinker = some g) {y : Access}
    {right : BitVec 3} (hmeets : ¬ (s.terminals.call i).Overruns)
    (hacc : (s.terminals.call i).access p i = some (y, right))
    (hok : s.terminals.memory.translate (SUPPORT_SYS_TRAP_NEW_STATE i) right y.address = .ok f) :
    Written p s.terminals.memory i (physical f y.address) := by
  have hwithin : y.Within p i := by
    have hkept := h.fenced.kept i
    cases hpc : s.terminals.call i with
    | load c va n j =>
        rw [hpc] at hacc hmeets hkept
        exact (hkept.load hacc hmeets hok).1
    | store c va n j =>
        rw [hpc] at hacc hmeets hkept
        exact (hkept.store hacc hmeets hok).1
    | user =>
        rw [hpc] at hacc
        cases hacc
    | readWait va =>
        rw [hpc] at hacc
        cases hacc
    | writeWait =>
        rw [hpc] at hacc
        cases hacc
  cases y with
  | pointer a => exact written_pointer (Or.inl rfl) hwithin hok
  | buffer x =>
      have hx : x < 2 ^ 17 := (buffer_page hg hwithin.1 hwithin.2).1
      show Written p s.terminals.memory i (physical f (BitVec.ofNat 32 x))
      rw [physical_buffer h.fenced.kernel hx hok]
      exact Or.inr hwithin

theorem transfer_loaded (hk : k ≠ i) : (s.transfer p i).loaded k = s.loaded k := by
  unfold transfer
  split
  · split
    · split
      · exact Function.update_of_ne hk ..
      · rfl
    · rfl
  · rfl

theorem transfer_bytes (hx : (s.transfer p i).bytes x ≠ s.bytes x) :
    ∃ y right f, (s.terminals.call i).access p i = some (y, right) ∧
      s.terminals.memory.translate (SUPPORT_SYS_TRAP_NEW_STATE i) right y.address = .ok f ∧
        x = physical f y.address := by
  unfold transfer at hx
  split at hx
  · next y right hacc =>
    split at hx
    · next f hok =>
      split at hx
      · exact absurd rfl hx
      · refine ⟨y, right, f, hacc, hok, ?_⟩
        by_contra hne
        exact hx (Bytes.set_of_ne hne)
    · exact absurd rfl hx
  · exact absurd rfl hx

-- A step is one of its T-process: nobody else's byte is loaded or written.
theorem Sound.step_frame (h : Sound p g s) (hg : pageinit p.toLinker = some g) (hmeets : Meets s a)
    (hs : Lines.step p a s = some s') :
    (s'.terminals = s.terminals ∨ ∃ b : TerminalAction, b.actor = a.actor ∧
        Support.Meets s.terminals b ∧ Terminals.step p b s.terminals = some s'.terminals) ∧
      (∀ k, k ≠ a.actor → s'.loaded k = s.loaded k) ∧
      ∀ x, s'.bytes x ≠ s.bytes x → Written p s.terminals.memory a.actor x := by
  unfold Lines.step at hs
  split at hs
  · next i =>
    obtain ⟨t, ht, rfl⟩ := Option.map_eq_some_iff.mp hs
    refine ⟨Or.inr ⟨.go i, rfl, hmeets, ht⟩, fun k hk => transfer_loaded hk, fun x hx => ?_⟩
    obtain ⟨y, right, f, hacc, hok, rfl⟩ := transfer_bytes hx
    exact h.access hg hmeets hacc hok
  · obtain ⟨t, ht, rfl⟩ := Option.map_eq_some_iff.mp hs
    exact ⟨Or.inr ⟨_, rfl, hmeets, ht⟩, fun _ _ => rfl, fun x hx => absurd rfl hx⟩
  · next i input d_stat d_dadd r2 =>
    obtain ⟨t, ht, rfl⟩ := Option.map_eq_some_iff.mp hs
    refine ⟨Or.inr ⟨.line i d_stat d_dadd r2, rfl, hmeets, ht⟩, fun _ _ => rfl, fun x hx => Or.inr ?_⟩
    by_contra hout
    exact hx (if_neg hout)
  · next i x c =>
    split at hs
    · split at hs
      · next f hok =>
        cases hs
        refine ⟨Or.inl rfl, fun _ _ => rfl, fun y hy => ?_⟩
        have hyx : y = physical f x := by
          by_contra hne
          exact hy (Bytes.set_of_ne hne)
        rw [hyx]
        exact written_pointer (Or.inr rfl) (translate_mapped hok) hok
      · cases hs
    · cases hs

theorem Sound.step (h : Sound p g s) (hg : pageinit p.toLinker = some g) (hmeets : Meets s a)
    (hs : Lines.step p a s = some s') : Sound p g s' := by
  rcases (h.step_frame hg hmeets hs).1 with heq | ⟨b, -, hb, ht⟩
  · exact ⟨heq ▸ h.fenced, heq ▸ h.running, heq ▸ h.own⟩
  · have hfenced := h.fenced.step hb ht
    rcases (Terminals.step_frame ht).2 with hm | ⟨c, hm⟩
    · exact ⟨hfenced, hm ▸ h.running, hm ▸ h.own⟩
    · exact ⟨hfenced, h.running.step hg hm, h.own.step hm⟩

-- What a step leaves of a T-process that does not take it.
structure Keeps (p : Image) (i : Term) (s s' : Lines) : Prop where
  call : s'.terminals.call i = s.terminals.call i
  loaded : s'.loaded i = s.loaded i
  bytes : ∀ x, Protected p s.terminals.memory i x → s'.bytes x = s.bytes x
  pages : ∀ pg, (s.terminals.memory.pd (.user i pg)).pd_p = true →
    s'.terminals.memory.pd (.user i pg) = s.terminals.memory.pd (.user i pg)

theorem Sound.pages (h : Sound p g s) (hg : pageinit p.toLinker = some g) (hmeets : Meets s a)
    (hs : Lines.step p a s = some s') {pg : Fin 32}
    (hp : (s.terminals.memory.pd (.user i pg)).pd_p = true) :
    s'.terminals.memory.pd (.user i pg) = s.terminals.memory.pd (.user i pg) := by
  rcases (h.step_frame hg hmeets hs).1 with heq | ⟨b, -, hb, ht⟩
  · rw [heq]
  · rcases (Terminals.step_frame ht).2 with hm | ⟨c, hm⟩
    · rw [hm]
    · exact h.own.keeps hm hp

theorem Sound.keeps (h : Sound p g s) (hg : pageinit p.toLinker = some g) (hmeets : Meets s a)
    (hs : Lines.step p a s = some s') (hi : i ≠ a.actor) : Keeps p i s s' := by
  obtain ⟨hterm, hloaded, hbytes⟩ := h.step_frame hg hmeets hs
  refine ⟨?_, hloaded i hi, fun x hx => ?_, fun pg hp => h.pages hg hmeets hs hp⟩
  · rcases hterm with heq | ⟨b, hb, -, ht⟩
    · rw [heq]
    · exact (Terminals.step_frame ht).1 i (hb ▸ hi)
  · by_contra hne
    exact h.not_protected hg hi (hbytes x hne) hx

theorem byte_iff : s.byte i v = some c ↔
    ∃ f, s.terminals.memory.translate (terminalProcessState i) READ v = .ok f ∧
      s.bytes (physical f v) = c := by
  unfold byte
  cases ht : s.terminals.memory.translate (terminalProcessState i) READ v with
  | ok f =>
      constructor
      · exact fun h => ⟨f, rfl, Option.some.inj h⟩
      · rintro ⟨_, hf, h⟩
        cases hf
        exact congrArg some h
  | error typ =>
      constructor
      · intro h
        cases h
      · rintro ⟨_, hf, _⟩
        cases hf

-- The support level finds the bytes of segment 1 where the T-process does.
theorem byte_of_translate {right : BitVec 3} (hseg : v_seg v = 1) (hright : right = READ ∨ right = WRITE)
    (hok : s.terminals.memory.translate (SUPPORT_SYS_TRAP_NEW_STATE i) right v = .ok f) :
    s.byte i v = some (s.bytes (physical f v)) := by
  have huser : s.terminals.memory.translate (terminalProcessState i) READ v = .ok f :=
    (translate_one (Or.inr rfl) hseg (Or.inl rfl)).mpr
      ((translate_one (Or.inl rfl) hseg hright).mp hok)
  exact byte_iff.mpr ⟨f, huser, rfl⟩

theorem Sound.page_of_byte (h : Sound p g s) (hseg : v_seg v = 1)
    (ht : s.terminals.memory.translate (terminalProcessState i) READ v = .ok f) :
    Protected p s.terminals.memory i (physical f v) ∧ g.pf_start ≤ f := by
  obtain ⟨hpage, hp, hf⟩ := (translate_one (Or.inr rfl) hseg (Or.inl rfl)).mp ht
  exact ⟨Or.inl ⟨_, hp, hf.trans (physical_page f v).symm⟩, hf ▸ h.page_high hp⟩

-- Two addresses of segment 1 are at the same byte only if the hardware takes them to
-- be the same.
theorem Sound.low_eq (h : Sound p g s) (hg : pageinit p.toLinker = some g) {v' : BitVec 32} {f' : ℕ}
    (hseg : v_seg v = 1) (hseg' : v_seg v' = 1)
    (ht : s.terminals.memory.translate (terminalProcessState i) READ v = .ok f)
    (ht' : s.terminals.memory.translate (terminalProcessState i) READ v' = .ok f')
    (heq : physical f v = physical f' v') : low v = low v' := by
  obtain ⟨hpage, hp, hf⟩ := (translate_one (Or.inr rfl) hseg (Or.inl rfl)).mp ht
  obtain ⟨hpage', hp', hf'⟩ := (translate_one (Or.inr rfl) hseg' (Or.inl rfl)).mp ht'
  have hframe : f = f' := by
    rw [← physical_page f v, ← physical_page f' v', heq]
  have hdesc := (h.running.separate hg).frames _ _ hp hp' (hf.trans (hframe.trans hf'.symm))
  have hpages : v_page v = v_page v' := Fin.mk.inj (Desc.user.inj hdesc).2
  refine low_eq_of (hseg.trans hseg'.symm) hpages ?_
  unfold physical at heq
  rw [hframe] at heq
  omega

section Keeps

theorem Keeps.byte (h : Keeps p i s s') (hseg : v_seg v = 1) (hb : s.byte i v = some c) :
    s'.byte i v = some c := by
  obtain ⟨f, ht, rfl⟩ := byte_iff.mp hb
  obtain ⟨hpage, hp, hf⟩ := (translate_one (Or.inr rfl) hseg (Or.inl rfl)).mp ht
  refine byte_iff.mpr ⟨f, (translate_one (Or.inr rfl) hseg (Or.inl rfl)).mpr ?_, ?_⟩
  · exact ⟨hpage, by rw [h.pages _ hp]; exact ⟨hp, hf⟩⟩
  · exact h.bytes _ (Or.inl ⟨_, hp, hf.trans (physical_page f v).symm⟩)

theorem Keeps.refl (s : Lines) : Keeps p i s s := ⟨rfl, rfl, fun _ _ => rfl, fun _ _ => rfl⟩

theorem Keeps.protected (h : Keeps p i s s') (hx : Protected p s.terminals.memory i x) :
    Protected p s'.terminals.memory i x := by
  rcases hx with ⟨pg, hp, hf⟩ | hx
  · refine Or.inl ⟨pg, ?_⟩
    rw [h.pages pg hp]
    exact ⟨hp, hf⟩
  · exact Or.inr hx

theorem Keeps.trans {s'' : Lines} (h : Keeps p i s s') (h' : Keeps p i s' s'') : Keeps p i s s'' where
  call := h'.call.trans h.call
  loaded := h'.loaded.trans h.loaded
  bytes x hx := (h'.bytes x (h.protected hx)).trans (h.bytes x hx)
  pages pg hp := (h'.pages pg ((h.pages pg hp).symm ▸ hp)).trans (h.pages pg hp)

theorem Keeps.buffer (h : Keeps p i s s') {b : ℕ} (hb : b < 512) :
    s'.bytes (p.io_buffer i + b) = s.bytes (p.io_buffer i + b) :=
  h.bytes _ (Or.inr ⟨by omega, by omega⟩)

-- The line that a terminal puts into the buffer is not in a page.
theorem Sound.deliver_byte (h : Sound p g s) (hg : pageinit p.toLinker = some g)
    {input : ℕ → BitVec 8} (hseg : v_seg v = 1) (hm : s'.terminals.memory = s.terminals.memory)
    (hbytes : s'.bytes = deliver p i input s.bytes) (hb : s.byte i v = some c) :
    s'.byte i v = some c := by
  obtain ⟨f, ht, rfl⟩ := byte_iff.mp hb
  refine byte_iff.mpr ⟨f, hm ▸ ht, ?_⟩
  rw [hbytes]
  refine if_neg fun hin => ?_
  have hlow := (buffer_page hg hin.1 hin.2).2
  have hhigh := (h.page_of_byte hseg ht).2
  rw [physical_page] at hlow
  omega

-- In a copy loop a T-process does nothing but copy and have its faults handled, and
-- it waits for the terminal.
theorem Sound.keeps_own (h : Sound p g s) (hg : pageinit p.toLinker = some g) (hmeets : Meets s a)
    (hs : Lines.step p a s = some s') (hne : a ≠ .call (.go i))
    (huser : s.terminals.call i ≠ .user) (hread : ∀ va, s.terminals.call i ≠ .readWait va)
    (hwrite : s.terminals.call i = .writeWait → s'.terminals.call i ≠ .user) : Keeps p i s s' := by
  by_cases hi : i = a.actor
  · have hpages : ∀ pg, (s.terminals.memory.pd (.user i pg)).pd_p = true →
        s'.terminals.memory.pd (.user i pg) = s.terminals.memory.pd (.user i pg) :=
      fun pg hp => h.pages hg hmeets hs hp
    cases a with
    | store k x c =>
        obtain rfl : i = k := hi
        simp [Lines.step, huser] at hs
    | line k input d_stat d_dadd r2 =>
        obtain rfl : i = k := hi
        obtain ⟨t, ht, rfl⟩ := Option.map_eq_some_iff.mp hs
        unfold Terminals.step at ht
        split at ht
        · cases ht
        · dsimp only at ht
          split at ht
          · next va hpc => exact absurd hpc (hread va)
          · cases ht
    | call b =>
        cases b with
        | go k =>
            obtain rfl : i = k := hi
            exact absurd rfl hne
        | mm b =>
            obtain ⟨t, ht, rfl⟩ := Option.map_eq_some_iff.mp hs
            refine ⟨?_, rfl, fun _ _ => rfl, hpages⟩
            unfold Terminals.step at ht
            split at ht
            · cases ht
            · cases b with
              | fault k typ seg pg =>
                  dsimp only at ht
                  split at ht
                  · obtain ⟨m, -, rfl⟩ := Option.map_eq_some_iff.mp ht
                    rfl
                  · cases ht
              | handle k =>
                  obtain ⟨m, -, rfl⟩ := Option.map_eq_some_iff.mp ht
                  rfl
        | sys9 k d3 =>
            obtain rfl : i = k := hi
            obtain ⟨t, ht, rfl⟩ := Option.map_eq_some_iff.mp hs
            simp [Terminals.step, huser] at ht
        | sys10 k d3 d4 =>
            obtain rfl : i = k := hi
            obtain ⟨t, ht, rfl⟩ := Option.map_eq_some_iff.mp hs
            simp [Terminals.step, huser] at ht
        | line k d_stat d_dadd r2 =>
            obtain rfl : i = k := hi
            obtain ⟨t, ht, rfl⟩ := Option.map_eq_some_iff.mp hs
            unfold Terminals.step at ht
            split at ht
            · cases ht
            · dsimp only at ht
              split at ht
              · next va hpc => exact absurd hpc (hread va)
              · cases ht
        | written k d_stat d_dadd =>
            obtain rfl : i = k := hi
            obtain ⟨t, ht, rfl⟩ := Option.map_eq_some_iff.mp hs
            unfold Terminals.step at ht
            split at ht
            · cases ht
            · dsimp only at ht
              split at ht
              · next hpc =>
                cases ht
                exact absurd (Function.update_self ..) (hwrite hpc)
              · cases ht
  · exact h.keeps hg hmeets hs hi

end Keeps

section Go

variable {y : Access} {right : BitVec 3} {next : CallPc} {va : BitVec 32} {n j b : ℕ} {l : Loop}

-- The load or store traps, or it is done.
theorem Sound.go_reach (h : Sound p g s) (hg : pageinit p.toLinker = some g)
    (hmeets : Meets s (.call (.go i))) (hs : Lines.step p (.call (.go i)) s = some s')
    (hacc : (s.terminals.call i).access p i = some (y, right))
    (hgo : s.terminals.go p i = s.terminals.reach p i y right next) :
    Keeps p i s s' ∨ ∃ f,
      s.terminals.memory.translate (SUPPORT_SYS_TRAP_NEW_STATE i) right y.address = .ok f ∧
        s'.terminals.call i = next ∧ s'.terminals.memory = s.terminals.memory ∧
          if right = READ then s'.bytes = s.bytes ∧ s'.loaded i = s.bytes (physical f y.address)
          else s'.bytes = s.bytes.set (physical f y.address) (s.loaded i) := by
  have hpages : ∀ pg, (s.terminals.memory.pd (.user i pg)).pd_p = true →
      s'.terminals.memory.pd (.user i pg) = s.terminals.memory.pd (.user i pg) :=
    fun pg hp => h.pages hg hmeets hs hp
  obtain ⟨t, ht, rfl⟩ := Option.map_eq_some_iff.mp hs
  have hreach : s.terminals.reach p i y right next = some t := by
    unfold Terminals.step at ht
    split at ht
    · cases ht
    · dsimp only at ht
      split at ht
      · exact hgo ▸ ht
      · cases ht
  rcases Terminals.reach_cases hreach with ⟨typ, herror, hcall, -⟩ | ⟨f, hok, hcall, hm⟩
  · have htransfer : s.transfer p i = s := by
      simp only [transfer, hacc, herror]
    left
    rw [htransfer]
    exact ⟨congrFun hcall i, rfl, fun _ _ => rfl, hpages⟩
  · refine Or.inr ⟨f, hok, (congrFun hcall i).trans (Function.update_self ..), hm, ?_⟩
    simp only [transfer, hacc, hok]
    split
    · exact ⟨rfl, Function.update_self ..⟩
    · rfl

-- The end of a loop.
theorem go_end (hs : Lines.step p (.call (.go i)) s = some s')
    (hpc : s.terminals.call i = .load l va n j) (hj : n ≤ j) :
    s'.terminals = s.terminals.finish i l va n ∧ s'.bytes = s.bytes := by
  have hacc : (s.terminals.call i).access p i = none := by
    rw [hpc]
    cases l with
    | readfromterminal d2 => exact if_neg (by omega)
    | writetoterminal => exact if_neg (by omega)
  obtain ⟨t, ht, rfl⟩ := Option.map_eq_some_iff.mp hs
  have htransfer : s.transfer p i = s := by
    simp only [transfer, hacc]
  have hbytes : (s.transfer p i).bytes = s.bytes := by rw [htransfer]
  refine ⟨?_, hbytes⟩
  unfold Terminals.step at ht
  split at ht
  · cases ht
  · dsimp only at ht
    split at ht
    · rw [Terminals.go, hpc] at ht
      rw [hpc] at hacc
      simp only [hacc] at ht
      exact (Option.some.inj ht).symm
    · cases ht

-- Where a loop takes byte b from, and where it puts it.
def source (p : Image) (i : Term) (l : Loop) (va : BitVec 32) (b : ℕ) (s : Lines) : Option (BitVec 8) :=
  match l with
  | .readfromterminal _ => some (s.bytes (p.io_buffer i + b))
  | .writetoterminal => s.byte i (va + BitVec.ofNat 32 b)

def target (p : Image) (i : Term) (l : Loop) (va : BitVec 32) (b : ℕ) (s : Lines) : Option (BitVec 8) :=
  match l with
  | .readfromterminal _ => s.byte i (va + BitVec.ofNat 32 b)
  | .writetoterminal => some (s.bytes (p.io_buffer i + b))

-- The loop has taken its bytes from where they were and put them where they go, and
-- has not written elsewhere.
structure Copied (p : Image) (i : Term) (l : Loop) (va : BitVec 32) (n : ℕ) (s₁ s : Lines) : Prop where
  loop : ∃ j, (∀ b < j, ∃ c, s.source p i l va b = some c ∧ s.target p i l va b = some c) ∧
    (s.terminals.call i = .load l va n j ∧ j ≤ n ∨
      s.terminals.call i = .store l va n j ∧ j < n ∧ s.source p i l va j = some (s.loaded i))
  input : ∀ d2, l = .readfromterminal d2 → ∀ b < 512,
    s.bytes (p.io_buffer i + b) = s₁.bytes (p.io_buffer i + b)
  spared : ∀ a c, v_seg a = 1 →
    (∀ d2, l = .readfromterminal d2 → ∀ b < n, low a ≠ low (va + BitVec.ofNat 32 b)) →
      s₁.byte i a = some c → s.byte i a = some c

theorem Keeps.source (h : Keeps p i s s') (hseg : v_seg (va + BitVec.ofNat 32 b) = 1) (hb : b < 512)
    (hc : s.source p i l va b = some c) : s'.source p i l va b = some c := by
  cases l with
  | readfromterminal d2 => exact (congrArg some (h.buffer hb)).trans hc
  | writetoterminal => exact h.byte hseg hc

theorem Keeps.target (h : Keeps p i s s') (hseg : v_seg (va + BitVec.ofNat 32 b) = 1) (hb : b < 512)
    (hc : s.target p i l va b = some c) : s'.target p i l va b = some c := by
  cases l with
  | readfromterminal d2 => exact h.byte hseg hc
  | writetoterminal => exact (congrArg some (h.buffer hb)).trans hc

end Go

section Copied

variable {s₁ : Lines} {va : BitVec 32} {n j b : ℕ} {l : Loop}

theorem Sound.load_le (h : Sound p g s) (hpc : s.terminals.call i = .load l va n j) : j ≤ 512 := by
  have hkept := h.fenced.kept i
  rw [hpc] at hkept
  exact hkept.1

theorem Sound.store_le (h : Sound p g s) (hpc : s.terminals.call i = .store l va n j) : j ≤ 512 := by
  have hkept := h.fenced.kept i
  rw [hpc] at hkept
  cases l with
  | readfromterminal d2 => exact hkept.1.le
  | writetoterminal => exact hkept.1

theorem Copied.copying (h : Copied p i l va n s₁ s) : s.terminals.call i ≠ .user ∧
    (∀ va, s.terminals.call i ≠ .readWait va) ∧ s.terminals.call i ≠ .writeWait := by
  obtain ⟨j, -, ⟨hpc, -⟩ | ⟨hpc, -⟩⟩ := h.loop
  · simp [hpc]
  · simp [hpc]

theorem Copied.keeps (h : Copied p i l va n s₁ s) (hsound : Sound p g s)
    (hseg : ∀ b < n, v_seg (va + BitVec.ofNat 32 b) = 1) (hk : Keeps p i s s') :
    Copied p i l va n s₁ s' := by
  refine ⟨?_, fun d2 hl b hb => (hk.buffer hb).trans (h.input d2 hl b hb),
    fun a c ha hout hc => hk.byte ha (h.spared a c ha hout hc)⟩
  obtain ⟨j, hcopied, hpc⟩ := h.loop
  have hle : j ≤ 512 ∧ j ≤ n := by
    rcases hpc with ⟨hpc, hj⟩ | ⟨hpc, hj, -⟩
    · exact ⟨hsound.load_le hpc, hj⟩
    · exact ⟨hsound.store_le hpc, hj.le⟩
  refine ⟨j, fun b hb => ?_, ?_⟩
  · obtain ⟨c, hsource, htarget⟩ := hcopied b hb
    have hbseg := hseg b (by omega)
    exact ⟨c, hk.source hbseg (by omega) hsource, hk.target hbseg (by omega) htarget⟩
  · rcases hpc with ⟨hpc, hj⟩ | ⟨hpc, hj, hloaded⟩
    · exact Or.inl ⟨hk.call.trans hpc, hj⟩
    · refine Or.inr ⟨hk.call.trans hpc, hj, ?_⟩
      rw [hk.loaded]
      cases l with
      | readfromterminal d2 =>
          have hkept := hsound.fenced.kept i
          rw [hpc] at hkept
          exact hk.source (hseg j hj) hkept.1 hloaded
      | writetoterminal => exact hk.byte (hseg j hj) hloaded

-- What stands where the loop does not store is still there.
theorem byte_set {x : ℕ} {c' : BitVec 8} (hm : s'.terminals.memory = s.terminals.memory)
    (hbytes : s'.bytes = s.bytes.set x c')
    (hx : ∀ f, s.terminals.memory.translate (terminalProcessState i) READ v = .ok f → physical f v ≠ x)
    (hc : s.byte i v = some c) : s'.byte i v = some c := by
  obtain ⟨f, ht, hf⟩ := byte_iff.mp hc
  refine byte_iff.mpr ⟨f, hm ▸ ht, ?_⟩
  rw [hbytes, Bytes.set_of_ne (hx f ht)]
  exact hf

theorem byte_same (hm : s'.terminals.memory = s.terminals.memory) (hbytes : s'.bytes = s.bytes) :
    s'.byte i v = s.byte i v := by
  unfold byte
  rw [hm, hbytes]

theorem Copied.load (h : Copied p i l va n s₁ s) (hsound : Sound p g s)
    (hg : pageinit p.toLinker = some g) (hseg : ∀ b < n, v_seg (va + BitVec.ofNat 32 b) = 1)
    (hmeets : Meets s (.call (.go i))) (hs : Lines.step p (.call (.go i)) s = some s')
    (hpc : s.terminals.call i = .load l va n j) (hj : j < n) : Copied p i l va n s₁ s' := by
  obtain ⟨y, hacc⟩ : ∃ y, (s.terminals.call i).access p i = some (y, READ) := by
    rw [hpc]
    cases l with
    | readfromterminal d2 => exact ⟨_, if_pos hj⟩
    | writetoterminal => exact ⟨_, if_pos hj⟩
  have hgo : s.terminals.go p i = s.terminals.reach p i y READ (.store l va n j) := by
    rw [hpc] at hacc
    rw [Terminals.go, hpc]
    simp only [hacc]
  rcases hsound.go_reach hg hmeets hs hacc hgo with hk | ⟨f, hok, hcall, hm, hbytes⟩
  · exact h.keeps hsound hseg hk
  · rw [if_pos rfl] at hbytes
    obtain ⟨hbytes, hloaded⟩ := hbytes
    have hsource : ∀ b, s'.source p i l va b = s.source p i l va b := by
      intro b
      cases l with
      | readfromterminal d2 => simp only [source, hbytes]
      | writetoterminal => exact byte_same hm hbytes
    have htarget : ∀ b, s'.target p i l va b = s.target p i l va b := by
      intro b
      cases l with
      | readfromterminal d2 => exact byte_same hm hbytes
      | writetoterminal => simp only [target, hbytes]
    refine ⟨⟨j, ?_, Or.inr ⟨hcall, hj, ?_⟩⟩, ?_, fun a c ha hout hc => ?_⟩
    · obtain ⟨j', hcopied, ⟨hpc', -⟩ | ⟨hpc', -⟩⟩ := h.loop
      · cases hpc.symm.trans hpc'
        intro b hb
        rw [hsource, htarget]
        exact hcopied b hb
      · cases hpc.symm.trans hpc'
    · rw [hsource, hloaded]
      have hover : ¬ (s.terminals.call i).Overruns := hmeets
      rw [hpc] at hacc hover
      cases l with
      | readfromterminal d2 =>
          simp only [CallPc.access, if_pos hj, Option.some.injEq, Prod.mk.injEq, and_true] at hacc
          subst hacc
          have hle := hsound.load_le hpc
          have hne : j ≠ 512 := fun hj' => hover ⟨by omega, hj'⟩
          have hlow := (buffer_page hg (i := i) (x := p.io_buffer i + j) (by omega) (by omega)).1
          have hphysical := physical_buffer hsound.fenced.kernel hlow hok
          exact congrArg (fun x => some (s.bytes x)) hphysical.symm
      | writetoterminal =>
          simp only [CallPc.access, if_pos hj, Option.some.injEq, Prod.mk.injEq, and_true] at hacc
          subst hacc
          exact byte_of_translate (hseg j hj) (Or.inl rfl) hok
    · rw [hbytes]
      exact h.input
    · rw [byte_same hm hbytes]
      exact h.spared a c ha hout hc

theorem Copied.store (h : Copied p i l va n s₁ s) (hsound : Sound p g s)
    (hg : pageinit p.toLinker = some g) (hseg : ∀ b < n, v_seg (va + BitVec.ofNat 32 b) = 1)
    (hmeets : Meets s (.call (.go i))) (hs : Lines.step p (.call (.go i)) s = some s')
    (hpc : s.terminals.call i = .store l va n j) : Copied p i l va n s₁ s' := by
  obtain ⟨j', hcopied, ⟨hpc', -⟩ | ⟨hpc', hj, hloaded⟩⟩ := h.loop
  · cases hpc.symm.trans hpc'
  cases hpc.symm.trans hpc'
  obtain ⟨y, hacc⟩ : ∃ y, (s.terminals.call i).access p i = some (y, WRITE) := by
    rw [hpc]
    cases l with
    | readfromterminal d2 => exact ⟨_, rfl⟩
    | writetoterminal => exact ⟨_, rfl⟩
  have hgo : s.terminals.go p i = s.terminals.reach p i y WRITE (.load l va n (j + 1)) := by
    rw [Terminals.go, hpc]
    rw [hpc] at hacc
    simp only [hacc]
  rcases hsound.go_reach hg hmeets hs hacc hgo with hk | ⟨f, hok, hcall, hm, hbytes⟩
  · exact h.keeps hsound hseg hk
  rw [if_neg (by decide)] at hbytes
  have hover : ¬ (s.terminals.call i).Overruns := hmeets
  have hkept := hsound.fenced.kept i
  rw [hpc] at hacc hover hkept
  cases l with
  | readfromterminal d2 =>
      obtain ⟨hlt, -, -⟩ := hkept
      cases hacc
      have huser : s.terminals.memory.translate (terminalProcessState i) READ
          (va + BitVec.ofNat 32 j) = .ok f :=
        (translate_one (Or.inr rfl) (hseg j hj) (Or.inl rfl)).mpr
          ((translate_one (Or.inl rfl) (hseg j hj) (Or.inr rfl)).mp hok)
      have hbuffer : ∀ b < 512, s'.bytes (p.io_buffer i + b) = s.bytes (p.io_buffer i + b) := by
        intro b hb
        rw [hbytes]
        refine Bytes.set_of_ne fun heq => ?_
        have hlow := (buffer_page hg (i := i) (x := p.io_buffer i + b) (by omega) (by omega)).2
        have hhigh := (hsound.page_of_byte (hseg j hj) huser).2
        rw [← physical_page f (va + BitVec.ofNat 32 j)] at hhigh
        have hpage := congrArg (· / PAGESIZE) heq
        dsimp only [Access.address] at hpage
        omega
      have hother : ∀ a c, v_seg a = 1 → low a ≠ low (va + BitVec.ofNat 32 j) →
          s.byte i a = some c → s'.byte i a = some c := by
        intro a c ha hne hc
        refine byte_set hm hbytes (fun f' ht heq => hne ?_) hc
        exact hsound.low_eq hg ha (hseg j hj) ht huser heq
      refine ⟨⟨j + 1, fun b hb => ?_, Or.inl ⟨hcall, hj⟩⟩, ?_, fun a c ha hout hc => ?_⟩
      · rcases Nat.lt_succ_iff_lt_or_eq.mp hb with hb | rfl
        · obtain ⟨c, hsource, htarget⟩ := hcopied b hb
          refine ⟨c, (congrArg some (hbuffer b (by omega))).trans hsource, ?_⟩
          refine hother _ c (hseg b (by omega)) (fun heq => ?_) htarget
          have hbj := low_add va (by omega) (by omega) heq
          omega
        · refine ⟨s.loaded i, (congrArg some (hbuffer b hlt)).trans hloaded, ?_⟩
          refine byte_iff.mpr ⟨f, hm ▸ huser, ?_⟩
          rw [hbytes]
          exact Bytes.set_self
      · exact fun d2' hl b hb => (hbuffer b hb).trans (h.input d2' hl b hb)
      · exact hother a c ha (hout d2 rfl j hj) (h.spared a c ha hout hc)
  | writetoterminal =>
      obtain ⟨hle, -⟩ := hkept
      have hlt : j < 512 := lt_of_le_of_ne hle hover
      cases hacc
      have hlow := buffer_page hg (i := i) (x := p.io_buffer i + j) (by omega) (by omega)
      have hphysical := physical_buffer hsound.fenced.kernel hlow.1 hok
      dsimp only [Access.address] at hbytes
      rw [hphysical] at hbytes
      have hother : ∀ a c, v_seg a = 1 → s.byte i a = some c → s'.byte i a = some c := by
        intro a c ha hc
        refine byte_set hm hbytes (fun f' ht heq => ?_) hc
        have hhigh := (hsound.page_of_byte ha ht).2
        rw [← physical_page f' a, heq] at hhigh
        omega
      refine ⟨⟨j + 1, fun b hb => ?_, Or.inl ⟨hcall, hj⟩⟩, fun d2 hl => Loop.noConfusion hl,
        fun a c ha hout hc => ?_⟩
      · rcases Nat.lt_succ_iff_lt_or_eq.mp hb with hb | rfl
        · obtain ⟨c, hsource, htarget⟩ := hcopied b hb
          refine ⟨c, hother _ c (hseg b (by omega)) hsource, ?_⟩
          rw [← htarget]
          refine congrArg some ?_
          rw [hbytes]
          exact Bytes.set_of_ne (by omega)
        · refine ⟨s.loaded i, hother _ _ (hseg b hj) hloaded, congrArg some ?_⟩
          rw [hbytes]
          exact Bytes.set_self
      · exact hother a c ha (h.spared a c ha hout hc)

-- The loop has come to its end.
structure Done (p : Image) (i : Term) (l : Loop) (va : BitVec 32) (n : ℕ) (s₁ s : Lines) : Prop where
  call : s.terminals.call i = l.after
  d2 : ∀ d2, l = .readfromterminal d2 → s.terminals.d2 i = d2
  copied : ∀ b < n, b < 512 ∧ ∃ c, s.source p i l va b = some c ∧ s.target p i l va b = some c
  input : ∀ d2, l = .readfromterminal d2 → ∀ b < 512,
    s.bytes (p.io_buffer i + b) = s₁.bytes (p.io_buffer i + b)
  spared : ∀ a c, v_seg a = 1 →
    (∀ d2, l = .readfromterminal d2 → ∀ b < n, low a ≠ low (va + BitVec.ofNat 32 b)) →
      s₁.byte i a = some c → s.byte i a = some c

theorem Copied.done (h : Copied p i l va n s₁ s) (hsound : Sound p g s)
    (hs : Lines.step p (.call (.go i)) s = some s') (hpc : s.terminals.call i = .load l va n n) :
    Done p i l va n s₁ s' := by
  obtain ⟨j, hcopied, ⟨hpc', -⟩ | ⟨hpc', -⟩⟩ := h.loop
  · cases hpc.symm.trans hpc'
    obtain ⟨hterm, hbytes⟩ := go_end hs hpc le_rfl
    obtain ⟨hcall, hm⟩ := Terminals.finish_call (s := s.terminals) i l va n
    have hmemory : s'.terminals.memory = s.terminals.memory := by rw [hterm, hm]
    have hbyte : ∀ v, s'.byte i v = s.byte i v := fun v => byte_same hmemory hbytes
    have hle := hsound.load_le hpc
    refine ⟨?_, ?_, fun b hb => ⟨by omega, ?_⟩, ?_, fun a c ha hout hc => ?_⟩
    · rw [hterm, hcall, Function.update_self]
    · rintro d2 rfl
      rw [hterm]
      exact Function.update_self ..
    · obtain ⟨c, hsource, htarget⟩ := hcopied b hb
      refine ⟨c, ?_⟩
      cases l with
      | readfromterminal d2 =>
          exact ⟨(congrArg (fun m : Bytes => some (m _)) hbytes).trans hsource,
            (hbyte _).trans htarget⟩
      | writetoterminal =>
          exact ⟨(hbyte _).trans hsource,
            (congrArg (fun m : Bytes => some (m _)) hbytes).trans htarget⟩
    · rw [hbytes]
      exact h.input
    · rw [hbyte]
      exact h.spared a c ha hout hc
  · cases hpc.symm.trans hpc'

theorem Copied.step (h : Copied p i l va n s₁ s) (hsound : Sound p g s)
    (hg : pageinit p.toLinker = some g) (hseg : ∀ b < n, v_seg (va + BitVec.ofNat 32 b) = 1)
    (hmeets : Meets s a) (hs : Lines.step p a s = some s') :
    Copied p i l va n s₁ s' ∨ Done p i l va n s₁ s' := by
  obtain ⟨j, -, hpc⟩ := h.loop
  by_cases hne : a = .call (.go i)
  · subst hne
    rcases hpc with ⟨hpc, hj⟩ | ⟨hpc, -⟩
    · rcases Nat.lt_or_eq_of_le hj with hj | rfl
      · exact Or.inl (h.load hsound hg hseg hmeets hs hpc hj)
      · exact Or.inr (h.done hsound hs hpc)
    · exact Or.inl (h.store hsound hg hseg hmeets hs hpc)
  · obtain ⟨huser, hread, hwrite⟩ := h.copying
    exact Or.inl (h.keeps hsound hseg (hsound.keeps_own hg hmeets hs hne huser hread
      fun hpc => absurd hpc hwrite))

-- The buffer stays as it is while the terminal writes it.
theorem Done.step (h : Done p i .writetoterminal va n s₁ s) (hsound : Sound p g s)
    (hg : pageinit p.toLinker = some g) (hseg : ∀ b < n, v_seg (va + BitVec.ofNat 32 b) = 1)
    (hmeets : Meets s a) (hs : Lines.step p a s = some s') (huser : s'.terminals.call i ≠ .user) :
    Done p i .writetoterminal va n s₁ s' := by
  have hpc : s.terminals.call i = .writeWait := h.call
  have hne : a ≠ .call (.go i) := by
    rintro rfl
    obtain ⟨t, ht, -⟩ := Option.map_eq_some_iff.mp hs
    simp [Terminals.step, Terminals.go, hpc] at ht
  have hk := hsound.keeps_own hg hmeets hs hne (by simp [hpc]) (by simp [hpc]) fun _ => huser
  refine ⟨hk.call.trans hpc, fun d2 hl => Loop.noConfusion hl, fun b hb => ?_,
    fun d2 hl => Loop.noConfusion hl, fun a c ha hout hc => ?_⟩
  · obtain ⟨hlt, c, hsource, htarget⟩ := h.copied b hb
    exact ⟨hlt, c, hk.source (hseg b hb) hlt hsource, hk.target (hseg b hb) hlt htarget⟩
  · exact hk.byte ha (h.spared a c ha hout hc)

end Copied

section Runs

variable {m₀ : Memory} {bytes : Bytes} {as bs : List LineAction} {r : Lines}
  {va d_stat d_dadd r2 d4 : BitVec 32} {input : ℕ → BitVec 8}

theorem begin_sound (h : Memory.Booted p.toLinker g m₀) (bytes : Bytes) :
    Sound p g (begin m₀ bytes) := by
  refine ⟨⟨h.kernel, fun i x hx => ?_, fun i va n hn => ?_, fun _ => trivial⟩, h.running,
    Memory.booted_private h⟩
  · exact absurd hx List.not_mem_nil
  · exact absurd hn List.not_mem_nil

theorem run_sound (hboot : Memory.p1 p.toLinker = some m₀)
    (h : Runs.run (Lines.step p) as (begin m₀ bytes) = some s)
    (hmeets : Runs.Along (Lines.step p) Meets as (begin m₀ bytes)) :
    ∃ g, pageinit p.toLinker = some g ∧ Sound p g s := by
  obtain ⟨g, hg, hbooted⟩ := Memory.p1_booted hboot
  exact ⟨g, hg, Runs.run_invariant (fun _ _ _ h hm hs => h.step hg hm hs)
    (begin_sound hbooted bytes) hmeets h⟩

-- A line that a T-process reads comes to its own page as the terminal has put it into
-- the buffer, with its length, whatever the other T-processes do meanwhile and
-- whichever pages the copy loop has to wait for, and nothing else of its segment 1
-- is written.
theorem run_readfromterminal (hboot : Memory.p1 p.toLinker = some m₀)
    (h : Runs.run (Lines.step p) as (begin m₀ bytes) = some s)
    (hwait : s.terminals.call i = .readWait va)
    (h' : Runs.run (Lines.step p) (.line i input d_stat d_dadd r2 :: bs) s = some r)
    (hin : ∀ cs t, cs <+: bs →
      Runs.run (Lines.step p) (.line i input d_stat d_dadd r2 :: cs) s = some t →
        t.terminals.call i ≠ .user)
    (hend : Lines.step p a r = some s') (huser : s'.terminals.call i = .user)
    (hmeets : Runs.Along (Lines.step p) Meets
      (as ++ .line i input d_stat d_dadd r2 :: (bs ++ [a])) (begin m₀ bytes))
    (hseg : ∀ b < (readResult d_stat d_dadd r2).1, v_seg (va + BitVec.ofNat 32 b) = 1) :
    s'.terminals.d2 i = (readResult d_stat d_dadd r2).2 ∧
      (∀ b < (readResult d_stat d_dadd r2).1,
        s'.byte i (va + BitVec.ofNat 32 b) = some (input b)) ∧
      ∀ v c, v_seg v = 1 →
        (∀ b < (readResult d_stat d_dadd r2).1, low v ≠ low (va + BitVec.ofNat 32 b)) →
          s.byte i v = some c → s'.byte i v = some c := by
  obtain ⟨g, hg, hsound⟩ := run_sound hboot h hmeets.append_left
  obtain ⟨hline, hrest⟩ := hmeets.append_right h
  obtain ⟨s₁, hs₁, hbs⟩ := Option.bind_eq_some_iff.mp h'
  have hsound₁ : Sound p g s₁ := hsound.step hg hline hs₁
  set n := (readResult d_stat d_dadd r2).1
  set d2 := (readResult d_stat d_dadd r2).2
  obtain ⟨t, ht, hterm⟩ := Option.map_eq_some_iff.mp hs₁
  have ht' : t = s.terminals.setCall i (.load (.readfromterminal d2) va n 0) := by
    unfold Terminals.step at ht
    split at ht
    · cases ht
    · simp only [hwait, Option.some.injEq] at ht
      exact ht.symm
  have hcall : s₁.terminals.call i = .load (.readfromterminal d2) va n 0 := by
    rw [← hterm, ht']
    exact Function.update_self ..
  have hinput : ∀ b < 512, s₁.bytes (p.io_buffer i + b) = input b := by
    intro b hb
    rw [← hterm]
    show deliver p i input s.bytes (p.io_buffer i + b) = input b
    rw [deliver, if_pos ⟨by omega, by omega⟩, Nat.add_sub_cancel_left]
  have hstart : Copied p i (.readfromterminal d2) va n s₁ s₁ :=
    ⟨⟨0, fun b hb => absurd hb (by omega), Or.inl ⟨hcall, by omega⟩⟩, fun _ _ _ _ => rfl,
      fun _ _ _ _ hc => hc⟩
  have hcopied := Runs.run_while (I := fun t => Sound p g t ∧ Copied p i (.readfromterminal d2) va n s₁ t)
    (J := fun t => t.terminals.call i ≠ .user)
    (fun t b t' hinv hm _ hne hs =>
      ⟨hinv.1.step hg hm hs, (hinv.2.step hinv.1 hg hseg hm hs).resolve_right
        fun hdone => hne hdone.call⟩)
    ⟨hsound₁, hstart⟩ (hrest s₁ hs₁).append_left
    (fun cs t hcs ht => hin cs t hcs (by rw [Runs.run, hs₁]; exact ht)) hbs
  have hlast := ((hrest s₁ hs₁).append_right hbs).1
  rcases hcopied.2.step hcopied.1 hg hseg hlast hend with hstill | hdone
  · exact absurd huser hstill.copying.1
  · refine ⟨hdone.d2 d2 rfl, fun b hb => ?_, fun v c hv hout hc => ?_⟩
    · obtain ⟨hlt, c, hsource, htarget⟩ := hdone.copied b hb
      rw [← hinput b hlt, ← hdone.input d2 rfl b hlt]
      exact htarget.trans hsource.symm
    · refine hdone.spared v c hv (fun _ _ => hout) ?_
      rw [← hterm, ht']
      exact hsound.deliver_byte hg hv rfl rfl hc

-- T-process 0 reads two bytes to its page 30, which is missing, while T-process 1
-- stores in its page 31.
def typed (b : ℕ) : BitVec 8 := if b = 0 then 72 else 10

def reading : List LineAction :=
  [.call (.go 0), .call (.go 0)] ++ List.replicate 9 (.call (.mm (.handle 0))) ++
    [.store 1 0x83e00 1] ++ List.replicate 3 (.call (.go 0))

theorem run_readfromterminal_sample : ∃ m₀ s', Memory.p1 Image.image.toLinker = some m₀ ∧
    Runs.run (Lines.step Image.image) ([.call (.sys9 0 0x83c00)] ++
      .line 0 typed NORMAL 2 2 :: (reading ++ [.call (.go 0)])) (begin m₀ fun _ => 0) = some s' ∧
    s'.byte 0 0x83c00 = some 72 ∧ s'.byte 0 0x83c01 = some 10 := by
  have hend : ∃ m₀ ∈ Memory.p1 Image.image.toLinker,
      ∃ s ∈ Runs.run (Lines.step Image.image) [.call (.sys9 0 0x83c00)] (begin m₀ fun _ => 0),
      ∃ r ∈ Runs.run (Lines.step Image.image) (.line 0 typed NORMAL 2 2 :: reading) s,
      ∃ s' ∈ Lines.step Image.image (.call (.go 0)) r,
        s.terminals.call 0 = .readWait 0x83c00 ∧ s'.terminals.call 0 = .user ∧
        (∀ cs ∈ reading.inits, ∀ t ∈ Runs.run (Lines.step Image.image)
          (.line 0 typed NORMAL 2 2 :: cs) s, t.terminals.call 0 ≠ .user) ∧
        Runs.Along (Lines.step Image.image) Meets ([.call (.sys9 0 0x83c00)] ++
          .line 0 typed NORMAL 2 2 :: (reading ++ [.call (.go 0)])) (begin m₀ fun _ => 0) := by
    decide +kernel
  obtain ⟨m₀, hboot, s, h, r, h', s', hs, hwait, huser, hin, hmeets⟩ := hend
  have hline := run_readfromterminal hboot h hwait h'
    (fun cs t hcs => hin cs ((List.mem_inits _ _).mpr hcs) t) hs huser hmeets (by decide)
  refine ⟨m₀, s', hboot, ?_, hline.2.1 0 (by decide), hline.2.1 1 (by decide)⟩
  rw [Runs.run_append, h, Option.bind_some, ← List.cons_append, Runs.run_append, h',
    Option.bind_some, Runs.run, hs]
  rfl

-- A line that a T-process writes stands in the buffer as it is in its own page as
-- long as the terminal may take it from there, and nothing of its segment 1 is
-- written.
theorem run_writetoterminal (hboot : Memory.p1 p.toLinker = some m₀)
    (h : Runs.run (Lines.step p) as (begin m₀ bytes) = some s)
    (h' : Runs.run (Lines.step p) (.call (.sys10 i va d4) :: bs) s = some s')
    (hin : ∀ cs t, cs <+: bs → Runs.run (Lines.step p) (.call (.sys10 i va d4) :: cs) s = some t →
      t.terminals.call i ≠ .user)
    (hwait : s'.terminals.call i = .writeWait)
    (hmeets : Runs.Along (Lines.step p) Meets (as ++ .call (.sys10 i va d4) :: bs) (begin m₀ bytes))
    (hseg : ∀ b < d4.toInt.toNat, v_seg (va + BitVec.ofNat 32 b) = 1) :
    (∀ b < d4.toInt.toNat,
        s'.byte i (va + BitVec.ofNat 32 b) = some (s'.bytes (p.io_buffer i + b))) ∧
      ∀ v c, v_seg v = 1 → s.byte i v = some c → s'.byte i v = some c := by
  obtain ⟨g, hg, hsound⟩ := run_sound hboot h hmeets.append_left
  obtain ⟨hsys, hrest⟩ := hmeets.append_right h
  obtain ⟨s₁, hs₁, hbs⟩ := Option.bind_eq_some_iff.mp h'
  have hsound₁ : Sound p g s₁ := hsound.step hg hsys hs₁
  set n := d4.toInt.toNat
  obtain ⟨t, ht, hterm⟩ := Option.map_eq_some_iff.mp hs₁
  have ht' : t = s.terminals.setCall i (.load .writetoterminal va n 0) := by
    unfold Terminals.step at ht
    split at ht
    · cases ht
    · dsimp only at ht
      split at ht
      · exact (Option.some.inj ht).symm
      · cases ht
  have hcall : s₁.terminals.call i = .load .writetoterminal va n 0 := by
    rw [← hterm, ht']
    exact Function.update_self ..
  have hstart : Copied p i .writetoterminal va n s₁ s₁ :=
    ⟨⟨0, fun b hb => absurd hb (by omega), Or.inl ⟨hcall, by omega⟩⟩, fun _ _ _ _ => rfl,
      fun _ _ _ _ hc => hc⟩
  have hend := Runs.run_while (J := fun t => t.terminals.call i ≠ .user)
    (I := fun t => Sound p g t ∧
      (Copied p i .writetoterminal va n s₁ t ∨ Done p i .writetoterminal va n s₁ t))
    (fun t b t' hinv hm _ hne hs => ⟨hinv.1.step hg hm hs, hinv.2.elim
      (fun hcopied => hcopied.step hinv.1 hg hseg hm hs)
      fun hdone => Or.inr (hdone.step hinv.1 hg hseg hm hs hne)⟩)
    ⟨hsound₁, Or.inl hstart⟩ (hrest s₁ hs₁)
    (fun cs t hcs ht => hin cs t hcs (by rw [Runs.run, hs₁]; exact ht)) hbs
  rcases hend.2 with hcopied | hdone
  · exact absurd hwait hcopied.copying.2.2
  · refine ⟨fun b hb => ?_, fun v c hv hc =>
      hdone.spared v c hv (fun d2 hl => Loop.noConfusion hl) ?_⟩
    · obtain ⟨-, c, hsource, htarget⟩ := hdone.copied b hb
      exact hsource.trans htarget.symm
    · rw [← hterm, ht']
      exact hc

-- T-process 0 writes back the two bytes that it has stored in its page 31.
def stored : List LineAction := [.store 0 0x83e00 72, .store 0 0x83e01 10]

def writing : List LineAction := List.replicate 5 (.call (.go 0))

theorem run_writetoterminal_sample : ∃ m₀ s', Memory.p1 Image.image.toLinker = some m₀ ∧
    Runs.run (Lines.step Image.image) (stored ++ .call (.sys10 0 0x83e00 2) :: writing)
      (begin m₀ fun _ => 0) = some s' ∧
    s'.byte 0 0x83e00 = some (s'.bytes (Image.image.io_buffer 0)) ∧
    s'.byte 0 0x83e01 = some (s'.bytes (Image.image.io_buffer 0 + 1)) := by
  have hend : ∃ m₀ ∈ Memory.p1 Image.image.toLinker,
      ∃ s ∈ Runs.run (Lines.step Image.image) stored (begin m₀ fun _ => 0),
      ∃ s' ∈ Runs.run (Lines.step Image.image) (.call (.sys10 0 0x83e00 2) :: writing) s,
        s'.terminals.call 0 = .writeWait ∧
        (∀ cs ∈ writing.inits, ∀ t ∈ Runs.run (Lines.step Image.image)
          (.call (.sys10 0 0x83e00 2) :: cs) s, t.terminals.call 0 ≠ .user) ∧
        Runs.Along (Lines.step Image.image) Meets
          (stored ++ .call (.sys10 0 0x83e00 2) :: writing) (begin m₀ fun _ => 0) := by
    decide +kernel
  obtain ⟨m₀, hboot, s, h, s', h', hwait, hin, hmeets⟩ := hend
  have hline := run_writetoterminal hboot h h'
    (fun cs t hcs => hin cs ((List.mem_inits _ _).mpr hcs) t) hwait hmeets (by decide)
  refine ⟨m₀, s', hboot, ?_, hline.1 0 (by decide), hline.1 1 (by decide)⟩
  rw [Runs.run_append, h, Option.bind_some, h']

end Runs

end Lines

end Hoca.Support
