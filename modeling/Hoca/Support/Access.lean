import Hoca.Support.Isolation
import Hoca.Support.Terminal

namespace Hoca.Support

abbrev ACCESSPROT : ℕ := 0

abbrev INVPAGE : ℕ := 2

abbrev SEGMISS : ℕ := 3

-- The fields of a virtual address.
def v_seg (a : BitVec 32) : ℕ := (a.extractLsb' 19 5).toNat

def v_page (a : BitVec 32) : ℕ := (a.extractLsb' 9 10).toNat

inductive PageTable where
  | user (i : Term)
  | shared
  | kernel (i : Term)
deriving DecidableEq

abbrev READ : BitVec 3 := 1

abbrev WRITE : BitVec 3 := 2

-- A segment descriptor.
structure Sd where
  sd_p : Bool
  sd_prot : BitVec 3
  sd_len : ℕ
  sd_pta : Option PageTable
deriving DecidableEq

-- The segment tables of a T-process.
def user_mode_sd_table (i : Term) (seg : ℕ) : Sd :=
  if seg = 1 then ⟨true, 7, 32, some (.user i)⟩
  else if seg = 2 then ⟨true, 7, 32, some .shared⟩
  else ⟨false, 0, 0, none⟩

def kernel_mode_sd_table (i : Term) (seg : ℕ) : Sd :=
  if seg = 0 then ⟨true, 7, KERNEL_PAGES, some (.kernel i)⟩
  else if seg = 1 then ⟨true, 7, 32, some (.user i)⟩
  else if seg = 2 then ⟨true, 7, 32, some .shared⟩
  else ⟨false, 0, 0, none⟩

-- What tprocess sets of the state that a system call trap loads, and of the state
-- of the T-process itself.
structure TrapState where
  ps_s : Bool
  ps_m : Bool
  s_crp : ℕ → Sd

def SUPPORT_SYS_TRAP_NEW_STATE (i : Term) : TrapState := ⟨true, true, kernel_mode_sd_table i⟩

def terminalProcessState (i : Term) : TrapState := ⟨false, true, user_mode_sd_table i⟩

namespace Memory

def descriptor (m : Memory) : PageTable → ℕ → Pd
  | .user i, pg => if h : pg < 32 then m.pd (.user i ⟨pg, h⟩) else ⟨false, 0⟩
  | .shared, pg => if h : pg < 32 then m.pd (.shared ⟨pg, h⟩) else ⟨false, 0⟩
  | .kernel i, pg => if h : pg < KERNEL_PAGES then m.kernel_mode_pd_table i ⟨pg, h⟩ else ⟨false, 0⟩

-- The frame that the hardware finds for an address, or the code of the trap.
def translate (m : Memory) (state : TrapState) (right : BitVec 3) (a : BitVec 32) : Except ℕ ℕ :=
  let sd := state.s_crp (v_seg a)
  if sd.sd_p then
    if v_page a < sd.sd_len then
      if sd.sd_prot &&& right = right then
        match sd.sd_pta with
        | none => .error PAGEMISS
        | some table =>
            if (m.descriptor table (v_page a)).pd_p then .ok (m.descriptor table (v_page a)).pd_frame
            else .error PAGEMISS
      else .error ACCESSPROT
    else .error INVPAGE
  else .error SEGMISS

-- The address lies on a page of the support level that is present.
def Supports (m : Memory) (i : Term) (a : BitVec 32) : Prop :=
  v_seg a = 0 ∧ (m.descriptor (.kernel i) (v_page a)).pd_p = true

instance (m : Memory) (i : Term) (a : BitVec 32) : Decidable (m.Supports i a) :=
  inferInstanceAs (Decidable (_ ∧ _))

end Memory

-- An address that the T-process may have mapped in user mode.
def Mappable (i : Term) (a : BitVec 32) : Prop :=
  ((terminalProcessState i).s_crp (v_seg a)).sd_p = true ∧
    v_page a < ((terminalProcessState i).s_crp (v_seg a)).sd_len

instance (i : Term) (a : BitVec 32) : Decidable (Mappable i a) :=
  inferInstanceAs (Decidable (_ ∧ _))

-- The two copy loops. SYS9 knows its result before it copies.
inductive Loop where
  | readfromterminal (d2 : BitVec 32)
  | writetoterminal
deriving DecidableEq

-- Where a T-process is in its terminal call: it is to load or to store byte j of n.
inductive CallPc where
  | user
  | readWait (virtualAddr : BitVec 32)
  | load (c : Loop) (virtualAddr : BitVec 32) (n j : ℕ)
  | store (c : Loop) (virtualAddr : BitVec 32) (n j : ℕ)
  | writeWait
deriving DecidableEq

-- A load or store of the copy loops, through the pointer of the caller or in its
-- io_buffer.
inductive Access where
  | pointer (a : BitVec 32)
  | buffer (a : ℕ)
deriving DecidableEq

def Access.address : Access → BitVec 32
  | .pointer a => a
  | .buffer a => BitVec.ofNat 32 a

-- The accesses so far, and the loops that have come to their end, with the pointer
-- and the length.
structure Terminals where
  memory : Memory
  call : Term → CallPc
  d2 : Term → BitVec 32
  accesses : List (Term × Access)
  ended : List (Term × BitVec 32 × ℕ)
  astray : Bool

-- A fault of a T-process in user mode or a step of slmmhandler, the calls, their
-- returns from SYS8, and the next step of a copy loop.
inductive TerminalAction where
  | mm (a : MmAction)
  | sys9 (i : Term) (d3 : BitVec 32)
  | sys10 (i : Term) (d3 d4 : BitVec 32)
  | line (i : Term) (d_stat d_dadd r2 : BitVec 32)
  | written (i : Term) (d_stat d_dadd : BitVec 32)
  | go (i : Term)
deriving DecidableEq

-- How many bytes SYS9 copies, and what it leaves in D2.
def readResult (terminalStatus expectedLength actualLength : BitVec 32) : ℕ × BitVec 32 :=
  if terminalStatus = ENDOFINPUT then
    if actualLength.toInt > 0 then (actualLength.toInt.toNat, actualLength)
    else (0, -terminalStatus)
  else if terminalStatus = NORMAL then (expectedLength.toInt.toNat, actualLength)
  else (0, -terminalStatus)

def writeResult (terminalStatus expectedLength : BitVec 32) : BitVec 32 :=
  if terminalStatus = NORMAL then
    if expectedLength = 0 then -ENDOFINPUT else expectedLength
  else -terminalStatus

-- The access that is next.
def CallPc.access (p : Image) (i : Term) : CallPc → Option (Access × BitVec 3)
  | .load (.readfromterminal _) _ n j =>
      if j < n then some (.buffer (p.io_buffer i + j), READ) else none
  | .load .writetoterminal va n j =>
      if j < n then some (.pointer (va + BitVec.ofNat 32 j), READ) else none
  | .store (.readfromterminal _) va _ j => some (.pointer (va + BitVec.ofNat 32 j), WRITE)
  | .store .writetoterminal _ _ j => some (.buffer (p.io_buffer i + j), WRITE)
  | _ => none

-- An access where it belongs.
def Access.Within (p : Image) (i : Term) : Access → Prop
  | .pointer a => Mappable i a
  | .buffer a => p.io_buffer i ≤ a ∧ a < p.io_buffer i + 512

instance (p : Image) (i : Term) : ∀ x : Access, Decidable (x.Within p i)
  | .pointer a => inferInstanceAs (Decidable (Mappable i a))
  | .buffer _ => inferInstanceAs (Decidable (_ ∧ _))

namespace Terminals

def setCall (s : Terminals) (i : Term) (pc : CallPc) : Terminals :=
  { s with call := Function.update s.call i pc }

-- A fault has four bits for the segment. What a store elsewhere does to the tables
-- of the support level is not followed further.
def reach (p : Image) (i : Term) (x : Access) (right : BitVec 3) (next : CallPc) (s : Terminals) :
    Option Terminals :=
  match s.memory.translate (SUPPORT_SYS_TRAP_NEW_STATE i) right x.address with
  | .error typ =>
      (s.memory.step (.fault i typ (v_seg x.address % 16) (v_page x.address))).map fun m =>
        { s with memory := m }
  | .ok _ => some { s.setCall i next with
      accesses := s.accesses ++ [(i, x)]
      astray := decide (right = WRITE ∧ ¬ x.Within p i) }

def finish (i : Term) (c : Loop) (virtualAddr : BitVec 32) (n : ℕ) (s : Terminals) : Terminals :=
  match c with
  | .readfromterminal d2 => { s.setCall i .user with
      d2 := Function.update s.d2 i d2
      ended := s.ended ++ [(i, virtualAddr, n)] }
  | .writetoterminal => { s.setCall i .writeWait with ended := s.ended ++ [(i, virtualAddr, n)] }

def go (p : Image) (i : Term) (s : Terminals) : Option Terminals :=
  match s.call i with
  | .load c virtualAddr n j =>
      match (s.call i).access p i with
      | some (x, right) => s.reach p i x right (.store c virtualAddr n j)
      | none => some (s.finish i c virtualAddr n)
  | .store c virtualAddr n j =>
      match (s.call i).access p i with
      | some (x, right) => s.reach p i x right (.load c virtualAddr n (j + 1))
      | none => none
  | _ => none

-- The T-process runs, not slmmhandler on its behalf.
def Runs (s : Terminals) (i : Term) : Prop := s.memory.handler i = .user

instance (s : Terminals) (i : Term) : Decidable (s.Runs i) := inferInstanceAs (Decidable (_ = _))

def step (p : Image) (a : TerminalAction) (s : Terminals) : Option Terminals :=
  if s.astray then none
  else match a with
    | .mm (.fault i typ seg pg) =>
        if s.call i = .user then
          (s.memory.step (.fault i typ seg pg)).map fun m => { s with memory := m }
        else none
    | .mm (.handle i) => (s.memory.step (.handle i)).map fun m => { s with memory := m }
    | .sys9 i d3 =>
        if s.call i = .user ∧ s.Runs i then some (s.setCall i (.readWait d3)) else none
    | .sys10 i d3 d4 =>
        if s.call i = .user ∧ s.Runs i then
          some (s.setCall i (.load .writetoterminal d3 d4.toInt.toNat 0))
        else none
    | .line i d_stat d_dadd r2 =>
        match s.call i with
        | .readWait virtualAddr =>
            let (n, d2) := readResult d_stat d_dadd r2
            some (s.setCall i (.load (.readfromterminal d2) virtualAddr n 0))
        | _ => none
    | .written i d_stat d_dadd =>
        match s.call i with
        | .writeWait =>
            some { s.setCall i .user with d2 := Function.update s.d2 i (writeResult d_stat d_dadd) }
        | _ => none
    | .go i => if s.Runs i then s.go p i else none

-- The T-processes are in their programs.
def begin (m : Memory) : Terminals where
  memory := m
  call _ := .user
  d2 _ := 0
  accesses := []
  ended := []
  astray := false

end Terminals

-- The byte a copy loop is at.
def CallPc.At : CallPc → BitVec 32 → Prop
  | .load _ va n j, a => j < n ∧ a = va + BitVec.ofNat 32 j
  | .store _ va _ j, a => a = va + BitVec.ofNat 32 j
  | _, _ => False

-- The terminal calls load and store for the caller at its own addresses and in its
-- buffer, a range that reaches segment 0 is never copied to its end, and a byte of
-- segment 0 is one that traps and ends the T-process.
structure Respects (p : Image) (s : Terminals) : Prop where
  within : ∀ i x, (i, x) ∈ s.accesses → x.Within p i
  ended : ∀ i va n, (i, va, n) ∈ s.ended → ∀ j < n, v_seg (va + BitVec.ofNat 32 j) ≠ 0
  denied : ∀ i a right, (s.call i).At a → v_seg a = 0 → right = READ ∨ right = WRITE →
    ∃ typ, s.memory.translate (SUPPORT_SYS_TRAP_NEW_STATE i) right a = .error typ ∧
      Memory.slmmhandler i typ (v_seg a % 16) (v_page a) = .terminate

-- The loop is at the byte behind the buffer.
def CallPc.Overruns : CallPc → Prop
  | .load (.readfromterminal _) _ n j => 512 < n ∧ j = 512
  | .store .writetoterminal _ _ j => j = 512
  | _ => False

instance : DecidablePred CallPc.Overruns
  | .load (.readfromterminal _) _ _ _ => inferInstanceAs (Decidable (_ ∧ _))
  | .store .writetoterminal _ _ _ => inferInstanceAs (Decidable (_ = _))
  | .load .writetoterminal _ _ _ | .store (.readfromterminal _) _ _ _ | .user | .readWait _
  | .writeWait => isFalse id

-- The line of SYS9 does not go to a present page of the support level.
def CallPc.Accepts (m : Memory) (i : Term) (n : ℕ) : CallPc → Prop
  | .readWait va => 0 < n → ¬ m.Supports i va
  | _ => True

instance (m : Memory) (i : Term) (n : ℕ) : DecidablePred (CallPc.Accepts m i n)
  | .readWait _ => inferInstanceAs (Decidable (_ → _))
  | .user | .load _ _ _ _ | .store _ _ _ _ | .writeWait => isTrue trivial

-- Nothing is copied from or to a pointer to a present page of the support level, and
-- no loop gets behind the buffer.
def Meets (s : Terminals) : TerminalAction → Prop
  | .sys10 i d3 d4 => 0 < d4.toInt → ¬ s.memory.Supports i d3
  | .line i d_stat d_dadd r2 => (s.call i).Accepts s.memory i (readResult d_stat d_dadd r2).1
  | .go i => ¬ (s.call i).Overruns
  | _ => True

instance (s : Terminals) : DecidablePred (Meets s)
  | .sys10 _ _ _ => inferInstanceAs (Decidable (_ → _))
  | .line _ _ _ _ => inferInstanceAs (Decidable (CallPc.Accepts _ _ _ _))
  | .go _ => inferInstanceAs (Decidable (¬ _))
  | .mm _ | .sys9 _ _ | .written _ _ _ => isTrue trivial

section Address

variable {a : BitVec 32} {i : Term} {right : BitVec 3} {m m' : Memory}

theorem v_seg_eq (a : BitVec 32) : v_seg a = a.toNat / 2 ^ 19 % 2 ^ 5 := by
  rw [v_seg, BitVec.extractLsb'_toNat, Nat.shiftRight_eq_div_pow]

theorem v_page_eq (a : BitVec 32) : v_page a = a.toNat / 2 ^ 9 % 2 ^ 10 := by
  rw [v_page, BitVec.extractLsb'_toNat, Nat.shiftRight_eq_div_pow]

-- The pages of a segment of the T-process do not reach the next segment.
theorem v_seg_succ (h : v_page a < 32) : v_seg (a + 1) = v_seg a := by
  rw [v_page_eq] at h
  rw [v_seg_eq, v_seg_eq, BitVec.toNat_add]
  have hlt := a.isLt
  have hone : (1 : BitVec 32).toNat = 1 := rfl
  rw [hone]
  omega

theorem mappable_iff : Mappable i a ↔ (v_seg a = 1 ∨ v_seg a = 2) ∧ v_page a < 32 := by
  simp only [Mappable, terminalProcessState, user_mode_sd_table]
  split
  · next h => simp [h]
  · next h =>
    split
    · next h' => simp [h']
    · next h' => simp [h, h']

theorem Mappable.v_seg_next {j : ℕ} (h : Mappable i (a + BitVec.ofNat 32 j)) :
    v_seg (a + BitVec.ofNat 32 (j + 1)) ≠ 0 := by
  obtain ⟨hseg, hpage⟩ := mappable_iff.mp h
  have hsucc : a + BitVec.ofNat 32 (j + 1) = a + BitVec.ofNat 32 j + 1 := by
    rw [BitVec.ofNat_add, ← BitVec.add_assoc]
    rfl
  rw [hsucc, v_seg_succ hpage]
  omega

theorem right_granted (h : right = READ ∨ right = WRITE) : (7 : BitVec 3) &&& right = right := by
  rcases h with rfl | rfl
  · rfl
  · rfl

namespace Memory

-- With all rights granted an address is found, or its page is missing or invalid.
theorem translate_eq {state : TrapState} {len : ℕ} {table : PageTable}
    (h : state.s_crp (v_seg a) = ⟨true, 7, len, some table⟩) (hright : right = READ ∨ right = WRITE) :
    m.translate state right a =
      if v_page a < len then
        if (m.descriptor table (v_page a)).pd_p then .ok (m.descriptor table (v_page a)).pd_frame
        else .error PAGEMISS
      else .error INVPAGE := by
  unfold translate
  dsimp only
  rw [h]
  simp only [if_true, right_granted hright]

theorem translate_supports (h : m.Supports i a) (hright : right = READ ∨ right = WRITE) :
    ∃ frame, m.translate (SUPPORT_SYS_TRAP_NEW_STATE i) right a = .ok frame := by
  obtain ⟨hseg, hp⟩ := h
  have hpage : v_page a < KERNEL_PAGES := by
    by_contra hpage
    rw [descriptor, dif_neg hpage] at hp
    cases hp
  have hsd : (SUPPORT_SYS_TRAP_NEW_STATE i).s_crp (v_seg a) =
      ⟨true, 7, KERNEL_PAGES, some (.kernel i)⟩ := by
    rw [hseg]
    rfl
  rw [translate_eq hsd hright, if_pos hpage, if_pos hp]
  exact ⟨_, rfl⟩

theorem translate_ok {frame : ℕ} (hright : right = READ ∨ right = WRITE)
    (h : m.translate (SUPPORT_SYS_TRAP_NEW_STATE i) right a = .ok frame) :
    Mappable i a ∨ m.Supports i a := by
  have hsd : (SUPPORT_SYS_TRAP_NEW_STATE i).s_crp (v_seg a) = kernel_mode_sd_table i (v_seg a) := rfl
  unfold kernel_mode_sd_table at hsd
  rw [mappable_iff]
  by_cases hzero : v_seg a = 0
  · rw [if_pos hzero] at hsd
    rw [translate_eq hsd hright] at h
    split at h
    · split at h
      · next hp => exact Or.inr ⟨hzero, hp⟩
      · cases h
    · cases h
  · rw [if_neg hzero] at hsd
    by_cases hone : v_seg a = 1
    · rw [if_pos hone] at hsd
      rw [translate_eq hsd hright] at h
      split at h
      · next hpage => exact Or.inl ⟨Or.inl hone, hpage⟩
      · cases h
    · rw [if_neg hone] at hsd
      by_cases htwo : v_seg a = 2
      · rw [if_pos htwo] at hsd
        rw [translate_eq hsd hright] at h
        split at h
        · next hpage => exact Or.inl ⟨Or.inr htwo, hpage⟩
        · cases h
      · rw [if_neg htwo] at hsd
        unfold translate at h
        dsimp only at h
        rw [hsd] at h
        cases h

-- A missing page of segment 0 ends the T-process.
theorem translate_denied (hseg : v_seg a = 0) (h : ¬ m.Supports i a)
    (hright : right = READ ∨ right = WRITE) :
    ∃ typ, m.translate (SUPPORT_SYS_TRAP_NEW_STATE i) right a = .error typ ∧
      slmmhandler i typ (v_seg a % 16) (v_page a) = .terminate := by
  cases ht : m.translate (SUPPORT_SYS_TRAP_NEW_STATE i) right a with
  | ok frame =>
      rcases translate_ok hright ht with hmap | hsup
      · have huser := (mappable_iff.mp hmap).1
        omega
      · exact absurd hsup h
  | error typ =>
      refine ⟨typ, rfl, ?_⟩
      simp [slmmhandler, hseg]

theorem Supports.congr (h : m'.kernel_mode_pd_table = m.kernel_mode_pd_table) :
    m'.Supports i a ↔ m.Supports i a := by
  rw [Supports, Supports, descriptor, descriptor, h]

end Memory

end Address

-- What a loop has behind it.
def CallPc.Kept (m : Memory) (i : Term) : CallPc → Prop
  | .load _ va n j => j ≤ 512 ∧ (∀ b < j, Mappable i (va + BitVec.ofNat 32 b)) ∧
      (j = 0 → 0 < n → ¬ m.Supports i va)
  | .store (.readfromterminal _) va _ j => j < 512 ∧
      (∀ b < j, Mappable i (va + BitVec.ofNat 32 b)) ∧ (j = 0 → ¬ m.Supports i va)
  | .store .writetoterminal va _ j => j ≤ 512 ∧ ∀ b < j + 1, Mappable i (va + BitVec.ofNat 32 b)
  | _ => True

structure Fenced (p : Image) (g : Frames) (s : Terminals) : Prop where
  kernel : s.memory.kernel_mode_pd_table = Memory.kernelPage p.toLinker g
  within : ∀ i x, (i, x) ∈ s.accesses → x.Within p i
  ended : ∀ i va n, (i, va, n) ∈ s.ended → ∀ j < n, v_seg (va + BitVec.ofNat 32 j) ≠ 0
  kept : ∀ i, (s.call i).Kept s.memory i

section Kept

variable {pc : CallPc} {m m' : Memory} {i : Term} {a va : BitVec 32} {n j : ℕ}

theorem CallPc.Kept.congr (h : pc.Kept m i)
    (hk : m'.kernel_mode_pd_table = m.kernel_mode_pd_table) : pc.Kept m' i := by
  cases pc with
  | load c va n j =>
      obtain ⟨hj, hmap, hfirst⟩ := h
      exact ⟨hj, hmap, fun h0 hn hs => hfirst h0 hn ((Memory.Supports.congr hk).mp hs)⟩
  | store c va n j =>
      cases c with
      | readfromterminal d2 =>
          obtain ⟨hj, hmap, hfirst⟩ := h
          exact ⟨hj, hmap, fun h0 hs => hfirst h0 ((Memory.Supports.congr hk).mp hs)⟩
      | writetoterminal => exact h
  | user => trivial
  | readWait va => trivial
  | writeWait => trivial

-- Behind a byte of the T-process comes no byte of segment 0, and the first one is
-- none that is present.
theorem byte_unsupported (hmap : ∀ b < j, Mappable i (va + BitVec.ofNat 32 b))
    (hfirst : j = 0 → ¬ m.Supports i va) : ¬ m.Supports i (va + BitVec.ofNat 32 j) := by
  cases j with
  | zero =>
      have hva : va + BitVec.ofNat 32 0 = va := BitVec.add_zero va
      rw [hva]
      exact hfirst rfl
  | succ j => exact fun hs => (hmap j (by omega)).v_seg_next hs.1

theorem CallPc.Kept.not_supports (h : pc.Kept m i) (hat : pc.At a) : ¬ m.Supports i a := by
  cases pc with
  | load c va n j =>
      obtain ⟨hjn, rfl⟩ := hat
      exact byte_unsupported h.2.1 fun h0 => h.2.2 h0 (by omega)
  | store c va n j =>
      obtain rfl : a = va + BitVec.ofNat 32 j := hat
      cases c with
      | readfromterminal d2 => exact byte_unsupported h.2.1 h.2.2
      | writetoterminal =>
          intro hs
          have huser := (mappable_iff.mp (h.2 j (by omega))).1
          have hzero := hs.1
          omega
  | user => exact hat.elim
  | readWait va => exact hat.elim
  | writeWait => exact hat.elim

end Kept

section Access

variable {p : Image} {i : Term} {m : Memory} {pc : CallPc} {c : Loop} {x : Access}
  {right : BitVec 3} {va : BitVec 32} {n j frame : ℕ}

theorem access_right (h : pc.access p i = some (x, right)) : right = READ ∨ right = WRITE := by
  unfold CallPc.access at h
  split at h
  · split at h
    · cases h
      exact Or.inl rfl
    · cases h
  · split at h
    · cases h
      exact Or.inl rfl
    · cases h
  · cases h
    exact Or.inr rfl
  · cases h
    exact Or.inr rfl
  · cases h

-- A load that does not trap is where it belongs, and the store comes next.
theorem CallPc.Kept.load (h : (CallPc.load c va n j).Kept m i)
    (hacc : (CallPc.load c va n j).access p i = some (x, right))
    (hmeets : ¬ (CallPc.load c va n j).Overruns)
    (hok : m.translate (SUPPORT_SYS_TRAP_NEW_STATE i) right x.address = .ok frame) :
    x.Within p i ∧ (CallPc.store c va n j).Kept m i := by
  have hright := access_right hacc
  obtain ⟨hj, hmap, hfirst⟩ := h
  cases c with
  | readfromterminal d2 =>
      simp only [CallPc.access] at hacc
      split at hacc
      · next hjn =>
        cases hacc
        have hne : j ≠ 512 := fun hj => hmeets ⟨by omega, hj⟩
        refine ⟨⟨by omega, by omega⟩, by omega, hmap, fun h0 => hfirst h0 (by omega)⟩
      · cases hacc
  | writetoterminal =>
      simp only [CallPc.access] at hacc
      split at hacc
      · next hjn =>
        cases hacc
        have hmapped : Mappable i (va + BitVec.ofNat 32 j) :=
          (Memory.translate_ok hright hok).resolve_right
            (byte_unsupported hmap fun h0 => hfirst h0 (by omega))
        refine ⟨hmapped, hj, fun b hb => ?_⟩
        rcases Nat.lt_succ_iff_lt_or_eq.mp hb with hb | rfl
        · exact hmap b hb
        · exact hmapped
      · cases hacc

theorem CallPc.Kept.store (h : (CallPc.store c va n j).Kept m i)
    (hacc : (CallPc.store c va n j).access p i = some (x, right))
    (hmeets : ¬ (CallPc.store c va n j).Overruns)
    (hok : m.translate (SUPPORT_SYS_TRAP_NEW_STATE i) right x.address = .ok frame) :
    x.Within p i ∧ (CallPc.load c va n (j + 1)).Kept m i := by
  have hright := access_right hacc
  cases c with
  | readfromterminal d2 =>
      cases hacc
      obtain ⟨hj, hmap, hfirst⟩ := h
      have hmapped : Mappable i (va + BitVec.ofNat 32 j) :=
        (Memory.translate_ok hright hok).resolve_right (byte_unsupported hmap hfirst)
      refine ⟨hmapped, by omega, fun b hb => ?_, fun h0 => absurd h0 (by omega)⟩
      rcases Nat.lt_succ_iff_lt_or_eq.mp hb with hb | rfl
      · exact hmap b hb
      · exact hmapped
  | writetoterminal =>
      cases hacc
      obtain ⟨hj, hmap⟩ := h
      have hne : j ≠ 512 := hmeets
      exact ⟨⟨by omega, by omega⟩, by omega, hmap, fun h0 => absurd h0 (by omega)⟩

end Access

namespace Fenced

variable {p : Image} {g : Frames} {s s' : Terminals} {i : Term} {a : TerminalAction}
  {m : Memory} {pc next : CallPc} {x : Access} {right : BitVec 3} {c : Loop} {va : BitVec 32}
  {n j : ℕ}

theorem respects (h : Fenced p g s) : Respects p s :=
  ⟨h.within, h.ended, fun i _ _ hat hseg hright =>
    Memory.translate_denied hseg ((h.kept i).not_supports hat) hright⟩

theorem setCall (h : Fenced p g s) (hpc : pc.Kept s.memory i) : Fenced p g (s.setCall i pc) where
  kernel := h.kernel
  within := h.within
  ended := h.ended
  kept k := by
    show (Function.update s.call i pc k).Kept s.memory k
    by_cases hk : k = i
    · subst hk
      rwa [Function.update_self]
    · rw [Function.update_of_ne hk]
      exact h.kept k

theorem setMemory {b : MmAction} (h : Fenced p g s) (hs : s.memory.step b = some m) :
    Fenced p g { s with memory := m } := by
  have hk := (Memory.step_tables hs).2.1
  exact ⟨hk.trans h.kernel, h.within, h.ended, fun k => (h.kept k).congr hk⟩

theorem reach (h : Fenced p g s) (hs : s.reach p i x right next = some s')
    (hnext : ∀ frame, s.memory.translate (SUPPORT_SYS_TRAP_NEW_STATE i) right x.address = .ok frame →
      x.Within p i ∧ next.Kept s.memory i) : Fenced p g s' := by
  unfold Terminals.reach at hs
  split at hs
  · obtain ⟨m, hm, rfl⟩ := Option.map_eq_some_iff.mp hs
    exact h.setMemory hm
  · next frame hok =>
    cases hs
    obtain ⟨hwithin, hkept⟩ := hnext frame hok
    have hset := h.setCall hkept
    refine ⟨hset.kernel, fun k y hy => ?_, hset.ended, hset.kept⟩
    rcases List.mem_append.mp hy with hy | hy
    · exact h.within k y hy
    · cases List.mem_singleton.mp hy
      exact hwithin

theorem finish (h : Fenced p g s) (hpc : (CallPc.load c va n j).Kept s.memory i) (hj : n ≤ j) :
    Fenced p g (s.finish i c va n) := by
  have hended : ∀ k va' n', (k, va', n') ∈ s.ended ++ [(i, va, n)] →
      ∀ b < n', v_seg (va' + BitVec.ofNat 32 b) ≠ 0 := by
    intro k va' n' hk b hb
    rcases List.mem_append.mp hk with hk | hk
    · exact h.ended k va' n' hk b hb
    · cases List.mem_singleton.mp hk
      have huser := (mappable_iff.mp (hpc.2.1 b (by omega))).1
      omega
  cases c with
  | readfromterminal d2 =>
      have hset : Fenced p g (s.setCall i .user) := h.setCall trivial
      exact ⟨hset.kernel, hset.within, hended, hset.kept⟩
  | writetoterminal =>
      have hset : Fenced p g (s.setCall i .writeWait) := h.setCall trivial
      exact ⟨hset.kernel, hset.within, hended, hset.kept⟩

theorem go (h : Fenced p g s) (hmeets : ¬ (s.call i).Overruns) (hs : s.go p i = some s') :
    Fenced p g s' := by
  have hkept := h.kept i
  unfold Terminals.go at hs
  split at hs
  · next c va n j hpc =>
    rw [hpc] at hs hkept hmeets
    split at hs
    · next x right hacc => exact h.reach hs fun frame hok => hkept.load hacc hmeets hok
    · next hacc =>
      cases hs
      refine h.finish hkept ?_
      by_contra hj
      cases c with
      | readfromterminal d2 => simp [CallPc.access, Nat.lt_of_not_le hj] at hacc
      | writetoterminal => simp [CallPc.access, Nat.lt_of_not_le hj] at hacc
  · next c va n j hpc =>
    rw [hpc] at hs hkept hmeets
    split at hs
    · next x right hacc => exact h.reach hs fun frame hok => hkept.store hacc hmeets hok
    · cases hs
  · cases hs

-- A loop that is to start.
theorem starts (h : Fenced p g s) (hfirst : 0 < n → ¬ s.memory.Supports i va) :
    Fenced p g (s.setCall i (.load c va n 0)) :=
  h.setCall ⟨by omega, fun b hb => absurd hb (by omega), fun _ => hfirst⟩

theorem step (h : Fenced p g s) (hmeets : Meets s a) (hs : Terminals.step p a s = some s') :
    Fenced p g s' := by
  unfold Terminals.step at hs
  split at hs
  · cases hs
  · split at hs
    · split at hs
      · obtain ⟨m, hm, rfl⟩ := Option.map_eq_some_iff.mp hs
        exact h.setMemory hm
      · cases hs
    · obtain ⟨m, hm, rfl⟩ := Option.map_eq_some_iff.mp hs
      exact h.setMemory hm
    · split at hs
      · cases hs
        exact h.setCall trivial
      · cases hs
    · next i d3 d4 =>
      split at hs
      · cases hs
        exact h.starts fun hn => hmeets (by omega)
      · cases hs
    · next i d_stat d_dadd r2 =>
      split at hs
      · next va hpc =>
        cases hs
        simp only [Meets, hpc] at hmeets
        exact h.starts hmeets
      · cases hs
    · next i d_stat d_dadd =>
      split at hs
      · cases hs
        have hset : Fenced p g (s.setCall i .user) := h.setCall trivial
        exact ⟨hset.kernel, hset.within, hset.ended, hset.kept⟩
      · cases hs
    · split at hs
      · exact h.go hmeets hs
      · cases hs

end Fenced

-- The step that comes to a byte of segment 0 ends the T-process.
theorem Respects.terminates {p : Image} {s : Terminals} {i : Term} {a : BitVec 32}
    {right : BitVec 3} (h : Respects p s) (hrun : s.Runs i)
    (hacc : (s.call i).access p i = some (.pointer a, right)) (hseg : v_seg a = 0) :
    ∃ s', s.go p i = some s' ∧ s'.memory.handler i = .terminate := by
  have hat : (s.call i).At a := by
    unfold CallPc.access at hacc
    split at hacc
    · split at hacc
      · cases hacc
      · cases hacc
    · next va n j hpc =>
      split at hacc
      · next hj =>
        cases hacc
        rw [hpc]
        exact ⟨hj, rfl⟩
      · cases hacc
    · next d2 va n j hpc =>
      cases hacc
      rw [hpc]
      rfl
    · cases hacc
    · cases hacc
  obtain ⟨typ, herror, hdenied⟩ := h.denied i a right hat hseg (access_right hacc)
  have hfault : s.memory.step (.fault i typ (v_seg a % 16) (v_page a)) =
      some (s.memory.setHandler i .terminate) := by
    have hmissing : s.memory.Missing i (v_seg a % 16) (v_page a) := by
      intro hpage
      rw [hseg]
      exact ⟨nofun, nofun⟩
    rw [← hdenied]
    exact if_pos ⟨hrun, fun _ => hmissing⟩
  have hreach : ∀ next, s.reach p i (.pointer a) right next =
      some { s with memory := s.memory.setHandler i .terminate } := by
    intro next
    simp only [Terminals.reach, Access.address, herror, hfault, Option.map_some]
  refine ⟨{ s with memory := s.memory.setHandler i .terminate }, ?_, Function.update_self ..⟩
  unfold Terminals.go
  split
  · rw [hacc]
    exact hreach _
  · rw [hacc]
    exact hreach _
  · next hload hstore =>
    exfalso
    cases hpc : s.call i with
    | load c va n j => exact hload _ _ _ _ hpc
    | store c va n j => exact hstore _ _ _ _ hpc
    | user => simp [hpc, CallPc.access] at hacc
    | readWait va => simp [hpc, CallPc.access] at hacc
    | writeWait => simp [hpc, CallPc.access] at hacc

section Break

variable {p : Image} {g : Frames} {s s' : Terminals} {i : Term} {a : TerminalAction} {m : Memory}
  {x : Access} {right : BitVec 3} {next : CallPc} {b n : ℕ} {c : Loop} {va : BitVec 32}

-- The buffer and the byte behind it are among the variables of the support level.
theorem buffer_supports (hg : pageinit p.toLinker = some g)
    (hk : m.kernel_mode_pd_table = Memory.kernelPage p.toLinker g) (hb : b ≤ 512) :
    m.Supports i (BitVec.ofNat 32 (p.io_buffer i + b)) := by
  obtain ⟨hbegin, hend⟩ := Image.buffer_end p i
  obtain ⟨hpage, hp⟩ : p.Mapped i g (p.io_buffer i + b) :=
    Image.mapped_bss hg (by omega) (by omega)
  simp only [PAGESIZE, KERNEL_PAGES] at hpage
  have hnat : (BitVec.ofNat 32 (p.io_buffer i + b)).toNat = p.io_buffer i + b := by
    rw [BitVec.toNat_ofNat]
    exact Nat.mod_eq_of_lt (by omega)
  have hvpage : v_page (BitVec.ofNat 32 (p.io_buffer i + b)) = (p.io_buffer i + b) / PAGESIZE := by
    rw [v_page_eq, hnat]
    simp only [PAGESIZE]
    omega
  refine ⟨?_, ?_⟩
  · rw [v_seg_eq, hnat]
    omega
  · rw [hvpage, Memory.descriptor, dif_pos hpage, hk]
    exact hp

-- A loop that is to start on a present page of the support level is not denied.
theorem not_respects_starts (hn : 0 < n) (hs : s.memory.Supports i va) :
    ¬ Respects p (s.setCall i (.load c va n 0)) := by
  intro h
  have hat : ((s.setCall i (.load c va n 0)).call i).At va := by
    show (Function.update s.call i (.load c va n 0) i).At va
    rw [Function.update_self]
    exact ⟨hn, (BitVec.add_zero va).symm⟩
  obtain ⟨typ, herror, -⟩ := h.denied i va READ hat hs.1 (Or.inl rfl)
  obtain ⟨frame, hok⟩ := Memory.translate_supports hs (Or.inl rfl)
  exact absurd (herror.symm.trans hok) (by simp)

theorem not_respects_reach (hs : s.reach p i x right next = some s')
    (hright : right = READ ∨ right = WRITE) (hx : s.memory.Supports i x.address)
    (hout : ¬ x.Within p i) : ¬ Respects p s' := by
  intro h
  obtain ⟨frame, hok⟩ := Memory.translate_supports hx hright
  simp only [Terminals.reach, hok, Option.some.injEq] at hs
  subst hs
  exact hout (h.within i x (by simp))

theorem Fenced.breaks (h : Fenced p g s) (hg : pageinit p.toLinker = some g)
    (hmeets : ¬ Meets s a) (hs : Terminals.step p a s = some s') : ¬ Respects p s' := by
  have hpast : ∀ i, ¬ (Access.buffer (p.io_buffer i + 512)).Within p i := by
    intro i hin
    exact absurd hin.2 (by omega)
  unfold Terminals.step at hs
  split at hs
  · cases hs
  · cases a with
    | mm b => exact absurd trivial hmeets
    | sys9 i d3 => exact absurd trivial hmeets
    | written i d_stat d_dadd => exact absurd trivial hmeets
    | sys10 i d3 d4 =>
        simp only [Meets, Classical.not_imp, not_not] at hmeets
        dsimp only at hs
        split at hs
        · cases hs
          exact not_respects_starts (by omega) hmeets.2
        · cases hs
    | line i d_stat d_dadd r2 =>
        dsimp only at hs
        split at hs
        · next va hpc =>
          cases hs
          simp only [Meets, hpc, CallPc.Accepts, Classical.not_imp, not_not] at hmeets
          exact not_respects_starts hmeets.1 hmeets.2
        · cases hs
    | go i =>
        dsimp only at hs
        have hover : (s.call i).Overruns := not_not.mp hmeets
        split at hs
        · unfold Terminals.go at hs
          split at hs
          · next c va n j hpc =>
            rw [hpc] at hs hover
            cases c with
            | readfromterminal d2 =>
                obtain ⟨hn, rfl⟩ := hover
                simp only [CallPc.access, if_pos hn] at hs
                exact not_respects_reach hs (Or.inl rfl) (buffer_supports hg h.kernel le_rfl) (hpast i)
            | writetoterminal => exact hover.elim
          · next c va n j hpc =>
            rw [hpc] at hs hover
            cases c with
            | readfromterminal d2 => exact hover.elim
            | writetoterminal =>
                obtain rfl : j = 512 := hover
                exact not_respects_reach hs (Or.inr rfl) (buffer_supports hg h.kernel le_rfl) (hpast i)
          · cases hs
        · cases hs

end Break

-- The terminal calls of a run respect the address spaces of the T-processes if and
-- only if no loop starts on a present page of the support level and none gets to a
-- 513th byte.
theorem run_respects_iff {p : Image} {m₀ : Memory} {as : List TerminalAction} {s : Terminals}
    (hboot : Memory.p1 p.toLinker = some m₀)
    (hrun : Runs.run (Terminals.step p) as (Terminals.begin m₀) = some s) :
    (∀ bs s₁, bs <+: as → Runs.run (Terminals.step p) bs (Terminals.begin m₀) = some s₁ →
      Respects p s₁) ↔ Runs.Along (Terminals.step p) Meets as (Terminals.begin m₀) := by
  obtain ⟨g, hg, hbooted⟩ := Memory.p1_booted hboot
  have hbegin : Fenced p g (Terminals.begin m₀) :=
    ⟨hbooted.kernel, fun i x hx => absurd hx (by simp [Terminals.begin]),
      fun i va n hn => absurd hn (by simp [Terminals.begin]), fun _ => trivial⟩
  exact Runs.always_iff_along (J := Fenced p g) (fun _ h => h.respects)
    (fun _ _ _ h hm hs => h.step hm hs) (fun _ _ _ h hm hs => h.breaks hg hm hs) hbegin hrun

-- T-process 0 reads two bytes to its page 31, T-process 1 writes one from there and
-- then one from page 0 of segment 0, where it ends.
def reads : List TerminalAction :=
  [.sys9 0 0x83e00, .line 0 NORMAL 2 2] ++ List.replicate 5 (.go 0) ++
    [.sys10 1 0x83e00 1, .go 1, .go 1, .go 1, .written 1 NORMAL 1, .sys10 1 0 1, .go 1]

theorem run_respects_sample : ∃ m₀ s, Memory.p1 Image.image.toLinker = some m₀ ∧
    Runs.run (Terminals.step Image.image) reads (Terminals.begin m₀) = some s ∧
    s.memory.handler 1 = .terminate ∧ Respects Image.image s := by
  have hval : ((Memory.p1 Image.image.toLinker).bind fun m₀ =>
      (Runs.run (Terminals.step Image.image) reads (Terminals.begin m₀)).map fun s =>
        (s.memory.handler 1, decide (Runs.Along (Terminals.step Image.image) Meets reads
          (Terminals.begin m₀)))) = some (.terminate, true) := by
    decide +kernel
  obtain ⟨m₀, hboot, hval⟩ := Option.bind_eq_some_iff.mp hval
  obtain ⟨s, hrun, hval⟩ := Option.map_eq_some_iff.mp hval
  rw [Prod.mk.injEq, decide_eq_true_eq] at hval
  exact ⟨m₀, s, hboot, hrun, hval.1,
    (run_respects_iff hboot hrun).mpr hval.2 reads s (List.prefix_refl _) hrun⟩

-- A line of one byte that T-process 0 reads goes to the segment table of T-process 1.
theorem support_overwritten : ∃ m₀ s, Memory.p1 Image.image.toLinker = some m₀ ∧
    Runs.run (Terminals.step Image.image)
      [.sys9 0 (BitVec.ofNat 32 (Image.image.process 1)), .line 0 NORMAL 1 1, .go 0, .go 0]
      (Terminals.begin m₀) = some s ∧
    (0, .pointer (BitVec.ofNat 32 (Image.image.process 1))) ∈ s.accesses ∧
    ¬ Respects Image.image s := by
  have hval : ((Memory.p1 Image.image.toLinker).bind fun m₀ =>
      (Runs.run (Terminals.step Image.image)
        [.sys9 0 (BitVec.ofNat 32 (Image.image.process 1)), .line 0 NORMAL 1 1, .go 0, .go 0]
        (Terminals.begin m₀)).map Terminals.accesses) =
      some [(0, .buffer (Image.image.io_buffer 0)),
        (0, .pointer (BitVec.ofNat 32 (Image.image.process 1)))] := by
    decide +kernel
  obtain ⟨m₀, hboot, hval⟩ := Option.bind_eq_some_iff.mp hval
  obtain ⟨s, hrun, hval⟩ := Option.map_eq_some_iff.mp hval
  have hmem : (0, Access.pointer (BitVec.ofNat 32 (Image.image.process 1))) ∈ s.accesses := by
    rw [hval]
    simp
  exact ⟨m₀, s, hboot, hrun, hmem, fun h => absurd (h.within _ _ hmem) (by decide +kernel)⟩

end Hoca.Support
