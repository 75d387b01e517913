import NiosMenu.Console

/-!
# The JTAG UART

The registers of `nios_jtag` between the bus, its two FIFOs and the link to the host. The
driver writes a byte only after the control register has shown room for it, so that no
byte is dropped and the host gets the text of the console whole and in order.
-/
namespace JtagUart

open Firmware Reactive Receive Board Console
open Devices (onBoard onLink)

/-- The FIFO of the device library, 64 bytes long. It does not check for overflow or
underflow, and a byte taken shows at `q` in the clock behind. -/
structure Scfifo (φ : Type) where
  reset : φ
  step : φ → Bool → Bool → Byte → φ
  full : φ → Bool
  empty : φ → Bool
  usedw : φ → BitVec 6
  q : φ → Byte

variable {φ : Type} {F : Scfifo φ} {contents : φ → List Byte}

/-- It is a queue as long as it is neither written when full nor read when empty. -/
structure Scfifo.Queue (F : Scfifo φ) (contents : φ → List Byte) : Prop where
  reset : contents F.reset = []
  full (s : φ) : F.full s = true ↔ (contents s).length = 64
  empty (s : φ) : contents s = [] → F.empty s = true
  usedw (s : φ) : F.usedw s = BitVec.ofNat 6 (contents s).length
  step (s : φ) (wrreq rdreq : Bool) (data : Byte) :
    (wrreq = true → (contents s).length < 64) → (rdreq = true → contents s ≠ []) →
      contents (F.step s wrreq rdreq data) =
        (if rdreq then (contents s).tail else contents s) ++ if wrreq then [data] else []
  q (s : φ) (wrreq : Bool) (data b : Byte) (l : List Byte) : contents s = b :: l →
    F.q (F.step s wrreq true data) = b

/-- The write FIFO carries what the program writes, the read FIFO what the host sends. -/
structure State (φ : Type) where
  ac : Bool
  fifoAE : Bool
  fifoAF : Bool
  fifoWr : Bool
  ienAE : Bool
  ienAF : Bool
  pauseIrq : Bool
  rVal : Bool
  read0 : Bool
  rvalid : Bool
  tDav : Bool
  woverflow : Bool
  avWaitrequest : Bool
  wfifo : φ
  rfifo : φ

def reset (F : Scfifo φ) : State φ where
  ac := false
  fifoAE := false
  fifoAF := false
  fifoWr := false
  ienAE := false
  ienAF := false
  pauseIrq := false
  rVal := false
  read0 := false
  rvalid := false
  tDav := true
  woverflow := false
  avWaitrequest := true
  wfifo := F.reset
  rfifo := F.reset

/-- The signals of the Avalon slave. -/
structure Bus where
  address : Bool
  chipselect : Bool
  readN : Bool
  writeN : Bool
  writedata : Word

/-- The side of the JTAG link. -/
structure Host where
  rEna : Bool
  tEna : Bool
  tPause : Bool
  tDat : Byte

def State.rdWfifo (F : Scfifo φ) (s : State φ) (h : Host) : Bool := h.rEna && !F.empty s.wfifo
def State.wrRfifo (F : Scfifo φ) (s : State φ) (h : Host) : Bool := h.tEna && !F.full s.rfifo
def State.reads (s : State φ) (b : Bus) : Bool := b.chipselect && !b.readN && s.avWaitrequest
def State.writes (s : State φ) (b : Bus) : Bool := b.chipselect && !b.writeN && s.avWaitrequest
def State.fifoRd (F : Scfifo φ) (s : State φ) (b : Bus) : Bool :=
  if s.reads b && !b.address then !F.empty s.rfifo else false
def State.ipenAE (s : State φ) : Bool := s.ienAE && s.fifoAE
def State.ipenAF (s : State φ) : Bool := s.ienAF && (s.pauseIrq || s.fifoAF)
def Host.activity (h : Host) : Bool := h.tPause || h.tEna

/-- The count of a FIFO with its full flag on top. -/
def Scfifo.count (F : Scfifo φ) (s : φ) : BitVec 7 := BitVec.ofBool (F.full s) ++ F.usedw s

def State.step (F : Scfifo φ) (s : State φ) (b : Bus) (h : Host) : State φ where
  ac :=
    if s.writes b && b.address && b.writedata.getLsbD 10 && !h.activity then false
    else if h.activity then true
    else s.ac
  fifoAE := decide ((F.count s.wfifo).setWidth 32 ≤ 8#32)
  fifoAF := decide (0x40#32 - (F.count s.rfifo).setWidth 32 ≤ 8#32)
  fifoWr := s.writes b && !b.address && !F.full s.wfifo
  ienAE := if s.writes b && b.address then b.writedata.getLsbD 1 else s.ienAE
  ienAF := if s.writes b && b.address then b.writedata.getLsbD 0 else s.ienAF
  pauseIrq :=
    if h.tPause && !F.empty s.rfifo then true
    else if s.read0 then false
    else s.pauseIrq
  rVal := s.rdWfifo F h
  read0 := s.reads b && !b.address
  rvalid := if s.reads b && !b.address then !F.empty s.rfifo else s.rvalid
  tDav := !F.full s.rfifo
  woverflow := if s.writes b && !b.address then F.full s.wfifo else s.woverflow
  avWaitrequest := !(b.chipselect && (!b.writeN || !b.readN) && s.avWaitrequest)
  wfifo := F.step s.wfifo s.fifoWr (s.rdWfifo F h) (b.writedata.setWidth 8)
  rfifo := F.step s.rfifo (s.wrRfifo F h) (s.fifoRd F b) h.tDat

/-- Bits 8 to 15, which both views of the register share. -/
def State.flags (F : Scfifo φ) (s : State φ) : BitVec 8 :=
  BitVec.ofBool s.rvalid ++ BitVec.ofBool s.woverflow ++ BitVec.ofBool (!F.full s.wfifo) ++
    BitVec.ofBool (!F.empty s.rfifo) ++ 0#1 ++ BitVec.ofBool s.ac ++ BitVec.ofBool s.ipenAE ++
    BitVec.ofBool s.ipenAF

def State.avReaddata (F : Scfifo φ) (s : State φ) : Word :=
  if s.read0 then 0#9 ++ F.count s.rfifo ++ (s.flags F ++ F.q s.rfifo)
  else
    0#9 ++ (0x40#7 - F.count s.wfifo) ++
      (s.flags F ++ (0#6 ++ BitVec.ofBool s.ienAE ++ BitVec.ofBool s.ienAF))

@[simp] theorem fifoWr_step (s : State φ) (b : Bus) (h : Host) :
    (s.step F b h).fifoWr = (s.writes b && !b.address && !F.full s.wfifo) := rfl
@[simp] theorem woverflow_step (s : State φ) (b : Bus) (h : Host) :
    (s.step F b h).woverflow =
      if s.writes b && !b.address then F.full s.wfifo else s.woverflow := rfl
@[simp] theorem avWaitrequest_step (s : State φ) (b : Bus) (h : Host) :
    (s.step F b h).avWaitrequest =
      !(b.chipselect && (!b.writeN || !b.readN) && s.avWaitrequest) := rfl

/-! ## The text on its way -/

/-- The byte that the host gets in a clock. -/
def State.received (F : Scfifo φ) (s : State φ) : List Byte := if s.rVal then [F.q s.wfifo] else []

/-- What is still to come, with the byte that the next clock gives to the host. -/
def State.underway (F : Scfifo φ) (contents : φ → List Byte) (s : State φ) : List Byte :=
  s.received F ++ contents s.wfifo

/-- What the two sides do to the write FIFO in one clock. -/
theorem wfifo_step (hF : F.Queue contents) {s : State φ}
    (hroom : s.fifoWr = true → (contents s.wfifo).length < 64) (b : Bus) (h : Host) :
    contents (s.step F b h).wfifo =
      (if s.rdWfifo F h then (contents s.wfifo).tail else contents s.wfifo) ++
        if s.fifoWr then [b.writedata.setWidth 8] else [] := by
  apply hF.step _ _ _ _ hroom
  intro hrd hnil
  have hempty := hF.empty s.wfifo hnil
  simp [State.rdWfifo, hempty] at hrd

/-- No clock loses, repeats or reorders a byte. -/
theorem underway_step (hF : F.Queue contents) {s : State φ}
    (hroom : s.fifoWr = true → (contents s.wfifo).length < 64) (b : Bus) (h : Host) :
    s.received F ++ (s.step F b h).underway F contents =
      s.underway F contents ++ if s.fifoWr then [b.writedata.setWidth 8] else [] := by
  have hgets : (s.step F b h).received F = if s.rdWfifo F h then
      [F.q (F.step s.wfifo s.fifoWr (s.rdWfifo F h) (b.writedata.setWidth 8))] else [] := rfl
  rw [State.underway, State.underway, List.append_assoc, wfifo_step hF hroom, hgets]
  congr 1
  cases hrd : s.rdWfifo F h with
  | false => simp
  | true =>
    have hfull : contents s.wfifo ≠ [] := by
      intro hnil
      have hempty := hF.empty s.wfifo hnil
      simp [State.rdWfifo, hempty] at hrd
    obtain ⟨c, l, hc⟩ := List.exists_cons_of_ne_nil hfull
    have hq := hF.q s.wfifo s.fifoWr (b.writedata.setWidth 8) c l hc
    simp [hc, hq]

theorem length_step (hF : F.Queue contents) {s : State φ}
    (hroom : s.fifoWr = true → (contents s.wfifo).length < 64) (b : Bus) (h : Host) :
    (contents (s.step F b h).wfifo).length ≤
      (contents s.wfifo).length + if s.fifoWr then 1 else 0 := by
  rw [wfifo_step hF hroom, List.length_append]
  cases s.rdWfifo F h <;> cases s.fifoWr <;> simp

/-! ## The driver -/

/-- Between two accesses. -/
structure Ready (contents : φ → List Byte) (s : State φ) : Prop where
  waits : s.avWaitrequest = true
  settled : s.fifoWr = false
  whole : s.woverflow = false
  fits : (contents s.wfifo).length ≤ 64

def nothing : Bus := ⟨false, false, true, true, 0⟩

/-- The signals of an event, for two clocks. -/
def signals : Event → Bus
  | .jtagControl _ => ⟨true, true, false, true, 0⟩
  | .act (.jtagData c) => ⟨false, true, true, false, promote c⟩
  | _ => nothing

/-- A clock without an access. -/
theorem ready_wait (hF : F.Queue contents) {s : State φ} (hs : Ready contents s) (h : Host) :
    Ready contents (s.step F nothing h) := by
  have hlength := length_step hF (fun hw => by rw [hs.settled] at hw; cases hw) nothing h
  rw [hs.settled, if_neg Bool.false_ne_true, Nat.add_zero] at hlength
  have hnone : s.writes nothing = false := rfl
  exact ⟨rfl, by simp [hnone], by simpa [hnone] using hs.whole, hlength.trans hs.fits⟩

theorem wspace_low (lo : BitVec 16) : wspace (0#9 ++ 0#7 ++ lo) = false := by
  have hmask : ∀ i < 16, (0xFFFF0000#32).getLsbD i = false := by decide
  have hzero : (0#9 ++ 0#7 ++ lo : Word) &&& 0xFFFF0000 = 0 := by
    apply BitVec.eq_of_getLsbD_eq
    intro i hi
    rw [BitVec.getLsbD_and, BitVec.getLsbD_append]
    by_cases hlow : i < 16
    · simp [hmask i hlow]
    · simp [hlow]
  rw [wspace, hzero]
  rfl

/-- Behind a read of the control register, room shown is room there. -/
theorem full_wspace (hF : F.Queue contents) {s : State φ} (hread : s.read0 = false)
    (hspace : wspace (s.avReaddata F) = true) : F.full s.wfifo = false := by
  cases hfull : F.full s.wfifo with
  | false => rfl
  | true =>
    have hcount : F.count s.wfifo = 0x40#7 := by
      rw [Scfifo.count, hF.usedw, (hF.full s.wfifo).mp hfull, hfull]
      rfl
    have hlow := wspace_low (s.flags F ++ (0#6 ++ BitVec.ofBool s.ienAE ++ BitVec.ofBool s.ienAF))
    rw [State.avReaddata, hread, if_neg Bool.false_ne_true, hcount, BitVec.sub_self] at hspace
    exact absurd (hlow.symm.trans hspace) Bool.false_ne_true

theorem full_of_length (hF : F.Queue contents) {s t : φ} (hs : F.full s = false)
    (hsmall : (contents s).length ≤ 64) (h : (contents t).length ≤ (contents s).length) :
    F.full t = false := by
  cases hfull : F.full t with
  | false => rfl
  | true =>
    have hmost := (hF.full t).mp hfull
    have hall : (contents s).length = 64 := by omega
    rw [(hF.full s).mpr hall] at hs
    cases hs

/-- An access takes two clocks. -/
theorem waits_twice {s : State φ} (hs : s.avWaitrequest = true) (b : Bus) (h₁ h₂ : Host) :
    ((s.step F b h₁).step F b h₂).avWaitrequest = true := by
  simp only [avWaitrequest_step, hs]
  cases b.chipselect && (!b.writeN || !b.readN) <;> rfl

/-- An access that does not print. -/
theorem access_quiet (hF : F.Queue contents) {s : State φ} (hs : Ready contents s) {e : Event}
    (hquiet : ∀ c, e ≠ .act (.jtagData c)) (h₁ h₂ : Host) :
    Ready contents ((s.step F (signals e) h₁).step F (signals e) h₂) ∧
    (contents ((s.step F (signals e) h₁).step F (signals e) h₂).wfifo).length ≤
      (contents (s.step F (signals e) h₁).wfifo).length ∧
    (contents (s.step F (signals e) h₁).wfifo).length ≤ (contents s.wfifo).length ∧
    s.received F ++ (s.step F (signals e) h₁).received F ++
      ((s.step F (signals e) h₁).step F (signals e) h₂).underway F contents =
        s.underway F contents := by
  have hnone : ∀ u : State φ, u.writes (signals e) = false := by
    intro u
    cases e with
    | act a =>
      cases a with
      | jtagData c => exact absurd rfl (hquiet c)
      | _ => rfl
    | _ => rfl
  have hfirst : (s.step F (signals e) h₁).fifoWr = false := by simp [hnone]
  have hroom : s.fifoWr = true → (contents s.wfifo).length < 64 := by simp [hs.settled]
  have hroom₁ : (s.step F (signals e) h₁).fifoWr = true →
      (contents (s.step F (signals e) h₁).wfifo).length < 64 := by
    intro hwr
    rw [hfirst] at hwr
    cases hwr
  have hlength := length_step hF hroom (signals e) h₁
  have hlength₁ := length_step hF hroom₁ (signals e) h₂
  have hlaw := underway_step hF hroom (signals e) h₁
  have hlaw₁ := underway_step hF hroom₁ (signals e) h₂
  rw [hs.settled, if_neg Bool.false_ne_true] at hlength hlaw
  rw [hfirst, if_neg Bool.false_ne_true] at hlength₁ hlaw₁
  rw [List.append_nil] at hlaw hlaw₁
  refine ⟨⟨?_, ?_, ?_, ?_⟩, hlength₁, hlength, ?_⟩
  · exact waits_twice hs.waits _ _ _
  · simp [hnone]
  · simpa [hnone] using hs.whole
  · have := hs.fits
    omega
  · rw [List.append_assoc, hlaw₁, hlaw]

/-- An access that prints a byte, with room for it. -/
theorem access_prints (hF : F.Queue contents) {s : State φ} (hs : Ready contents s) {c : Byte}
    {b : Bus} (hb : b = signals (.act (.jtagData c))) (hroom : F.full s.wfifo = false)
    (h₁ h₂ : Host) :
    Ready contents ((s.step F b h₁).step F b h₂) ∧
    s.received F ++ (s.step F b h₁).received F ++
      ((s.step F b h₁).step F b h₂).underway F contents = s.underway F contents ++ [c] := by
  have hfits := hs.fits
  have hless : (contents s.wfifo).length < 64 := by
    by_contra hmore
    have hall := (hF.full s.wfifo).mpr (by omega)
    rw [hroom] at hall
    cases hall
  have haddress : b.address = false := by rw [hb]; rfl
  have hdata : b.writedata.setWidth 8 = c := by
    rw [hb]
    exact low_promote c
  have hwrites : s.writes b = true := by
    rw [hb, State.writes, hs.waits]
    rfl
  have hfirst : (s.step F b h₁).fifoWr = true := by simp [hwrites, haddress, hroom]
  have hwaits : (s.step F b h₁).avWaitrequest = false := by
    rw [avWaitrequest_step, hb, hs.waits]
    rfl
  have hlast : (s.step F b h₁).writes b = false := by rw [State.writes, hwaits, Bool.and_false]
  have hlength := length_step hF (fun _ => hless) b h₁
  have hlaw := underway_step hF (fun _ => hless) b h₁
  rw [hs.settled, if_neg Bool.false_ne_true] at hlength hlaw
  rw [List.append_nil] at hlaw
  have hless₁ : (contents (s.step F b h₁).wfifo).length < 64 := by omega
  have hlength₁ := length_step hF (fun _ => hless₁) b h₂
  have hlaw₁ := underway_step hF (fun _ => hless₁) b h₂
  rw [hfirst, if_pos rfl] at hlength₁ hlaw₁
  rw [hdata] at hlaw₁
  refine ⟨⟨waits_twice hs.waits _ _ _, ?_, ?_, by omega⟩, ?_⟩
  · rw [fifoWr_step, hlast]
    rfl
  · simp [hlast, hwrites, haddress, hroom]
  · rw [List.append_assoc, hlaw₁, ← List.append_assoc, hlaw]

/-! ## The program and the console -/

/-- The program, the JTAG UART, and the text that the host has got. -/
structure System (σ φ : Type) where
  program : σ
  uart : State φ
  text : List Byte

/-- An event of the program, or a clock without one. -/
inductive Move where
  | own (e : Event) (h₁ h₂ : Host)
  | wait (h : Host)

def Move.event : Move → Option Event
  | .own e _ _ => some e
  | .wait _ => none

def events (ms : List Move) : List Event := ms.filterMap Move.event

/-- A read of the control register ends in its second clock. -/
def answers (F : Scfifo φ) (u : State φ) : Event → Bool
  | .jtagControl v => v == u.avReaddata F
  | _ => true

variable {σ : Type} {stp : σ → Event → Option σ} {todo : σ → List Stmt}

def linkStep (F : Scfifo φ) (stp : σ → Event → Option σ) (s : System σ φ) :
    Move → Option (System σ φ)
  | .own e h₁ h₂ =>
    if answers F (s.uart.step F (signals e) h₁) e then
      (stp s.program e).map fun p => ⟨p, (s.uart.step F (signals e) h₁).step F (signals e) h₂,
        s.text ++ s.uart.received F ++ (s.uart.step F (signals e) h₁).received F⟩
    else none
  | .wait h => some ⟨s.program, s.uart.step F nothing h, s.text ++ s.uart.received F⟩

theorem linkStep_own {s t : System σ φ} {e : Event} {h₁ h₂ : Host}
    (h : linkStep F stp s (.own e h₁ h₂) = some t) :
    answers F (s.uart.step F (signals e) h₁) e = true ∧ ∃ p, stp s.program e = some p ∧
      t = ⟨p, (s.uart.step F (signals e) h₁).step F (signals e) h₂,
        s.text ++ s.uart.received F ++ (s.uart.step F (signals e) h₁).received F⟩ := by
  simp only [linkStep, Option.ite_none_right_eq_some] at h
  obtain ⟨p, hp, ht⟩ := Option.map_eq_some_iff.mp h.2
  exact ⟨h.1, p, hp, ht.symm⟩

/-- Statements that print only through the driver. -/
def driven : Stmt → Bool
  | .act (.jtagData _) => false
  | _ => true

/-- A byte is written next only if there is room for it, and not later without a new look at
the control register. -/
structure Fed (F : Scfifo φ) (contents : φ → List Byte) (l : List Stmt) (s : State φ) :
    Prop where
  ready : Ready contents s
  head : ∀ c, l.head? = some (.act (.jtagData c)) → F.full s.wfifo = false
  tail : ∀ x ∈ l.tail, driven x = true

theorem fed_driven {l : List Stmt} (h : ∀ x ∈ l, driven x = true) {s : State φ}
    (hs : Ready contents s) : Fed F contents l s := by
  refine ⟨hs, fun c hhead => ?_, fun x hx => h x (List.mem_of_mem_tail hx)⟩
  have hnone := h _ (List.mem_of_head? hhead)
  cases hnone

/-- Only a look at the control register that has seen room makes the program write a byte. -/
theorem micro_jtagData {s : Stmt} {e : Event} {l : List Stmt} (h : micro s e = some l)
    {c : Byte} (hmem : .act (.jtagData c) ∈ l) :
    (∃ v, e = .jtagControl v ∧ wspace v = true) ∧ l = [.act (.jtagData c)] := by
  obtain ⟨a, rfl, rfl, rfl⟩ | ⟨v, rfl, rfl, rfl⟩ | ⟨v, rfl, rfl, rfl⟩ | ⟨v, rfl, rfl, rfl⟩ |
    ⟨d, rfl, rfl, rfl⟩ | ⟨d, v, rfl, rfl, rfl⟩ := micro_cases h
  · cases hmem
  · split at hmem <;> simp at hmem
  · split at hmem <;> simp at hmem
  · simp at hmem
  · split at hmem <;> simp at hmem
  · cases hv : wspace v with
    | true =>
      simp only [hv, if_true, List.mem_singleton, Stmt.act.injEq, Action.jtagData.injEq] at hmem
      exact ⟨⟨v, rfl, hv⟩, by rw [if_pos rfl, hmem]⟩
    | false => simp [hv] at hmem

/-- What is left behind an event without a byte is fed if what it brings is. -/
theorem fed_micro (hF : F.Queue contents) {x : Stmt} {e : Event} {l rest : List Stmt}
    (hl : micro x e = some l) (hrest : ∀ y ∈ rest, driven y = true) {u s : State φ}
    (hu : answers F u e = true) (hread : (∃ v, e = .jtagControl v) → u.read0 = false)
    (hless : (contents s.wfifo).length ≤ (contents u.wfifo).length)
    (hfits : (contents u.wfifo).length ≤ 64) (hs : Ready contents s) :
    Fed F contents (l ++ rest) s := by
  by_cases hmem : ∃ c, .act (.jtagData c) ∈ l
  · obtain ⟨c, hc⟩ := hmem
    obtain ⟨⟨v, rfl, hv⟩, rfl⟩ := micro_jtagData hl hc
    have hvalue : v = u.avReaddata F := by simpa [answers] using hu
    rw [hvalue] at hv
    exact ⟨hs, fun _ _ => full_of_length hF (full_wspace hF (hread ⟨v, rfl⟩) hv) hfits hless,
      hrest⟩
  · refine fed_driven (List.forall_mem_append.mpr ⟨fun y hy => ?_, hrest⟩) hs
    cases y with
    | act a =>
      cases a with
      | jtagData c => exact absurd ⟨c, hy⟩ hmem
      | _ => rfl
    | _ => rfl

theorem fed_step (hF : F.Queue contents) (hstp : Bodied driven stp todo) {s t : System σ φ}
    {m : Move} (h : Fed F contents (todo s.program) s.uart) (hm : linkStep F stp s m = some t) :
    Fed F contents (todo t.program) t.uart ∧
    t.text ++ t.uart.underway F contents =
      s.text ++ s.uart.underway F contents ++ printed m.event.toList := by
  have hsettled : s.uart.fifoWr = true → (contents s.uart.wfifo).length < 64 := by
    intro hwr
    rw [h.ready.settled] at hwr
    cases hwr
  cases m with
  | wait g =>
    cases hm
    have hlaw := underway_step hF hsettled nothing g
    have hlength := length_step hF hsettled nothing g
    rw [h.ready.settled, if_neg Bool.false_ne_true] at hlaw hlength
    refine ⟨⟨ready_wait hF h.ready g, fun c hhead => ?_, h.tail⟩, ?_⟩
    · exact full_of_length hF (h.head c hhead) h.ready.fits hlength
    · rw [List.append_assoc, hlaw, List.append_nil]
      exact (List.append_nil _).symm
  | own e h₁ h₂ =>
    obtain ⟨hanswers, p, hp, rfl⟩ := linkStep_own hm
    by_cases hbyte : ∃ c, e = .act (.jtagData c)
    · obtain ⟨c, rfl⟩ := hbyte
      obtain ⟨x, rest, l, hx, hl, hrest⟩ | ⟨b, hb, -⟩ := hstp _ _ _ hp
      · have hhead : x = .act (.jtagData c) ∧ l = [] := by
          cases x <;> simp [micro] at hl
          exact ⟨by rw [hl.1], hl.2⟩
        have htail := h.tail
        rw [hx] at htail
        have hroom := h.head c (by rw [hx, hhead.1]; rfl)
        obtain ⟨hready, hlaw⟩ := access_prints hF h.ready rfl hroom h₁ h₂
        refine ⟨?_, ?_⟩
        · rw [hrest, hhead.2]
          exact fed_driven htail hready
        · rw [List.append_assoc s.text, List.append_assoc s.text, hlaw, List.append_assoc]
          rfl
      · cases hb
    · have hquiet : ∀ c, e ≠ .act (.jtagData c) := fun c he => hbyte ⟨c, he⟩
      obtain ⟨hready, hlast, hfirst, hlaw⟩ := access_quiet hF h.ready hquiet h₁ h₂
      refine ⟨?_, ?_⟩
      · obtain ⟨x, rest, l, hx, hl, hrest⟩ | ⟨b, rfl, hbody⟩ := hstp _ _ _ hp
        · have htail := h.tail
          rw [hx] at htail
          rw [hrest]
          refine fed_micro hF hl htail hanswers ?_ hlast (hfirst.trans h.ready.fits) hready
          rintro ⟨v, rfl⟩
          exact Bool.and_false _
        · exact fed_driven hbody hready
      · have hnone : printed (Move.own e h₁ h₂).event.toList = [] := by
          cases e with
          | act a =>
            cases a with
            | jtagData c => exact absurd rfl (hquiet c)
            | _ => rfl
          | _ => rfl
        rw [hnone, List.append_nil, List.append_assoc s.text, List.append_assoc s.text, hlaw]

theorem events_cons (m : Move) (ms : List Move) :
    events (m :: ms) = m.event.toList ++ events ms := by
  cases m <;> rfl

theorem fed_run (hF : F.Queue contents) (hstp : Bodied driven stp todo) {s t : System σ φ}
    {ms : List Move} (h : Fed F contents (todo s.program) s.uart)
    (hrun : run (linkStep F stp) s ms = some t) :
    Fed F contents (todo t.program) t.uart ∧
    t.text ++ t.uart.underway F contents =
      s.text ++ s.uart.underway F contents ++ printed (events ms) := by
  induction ms generalizing s with
  | nil =>
    cases hrun
    exact ⟨h, (List.append_nil _).symm⟩
  | cons m ms ih =>
    obtain ⟨u, hu, ht⟩ := Option.bind_eq_some_iff.mp hrun
    obtain ⟨hfed, hlaw⟩ := fed_step hF hstp h hu
    obtain ⟨hlast, hall⟩ := ih hfed ht
    refine ⟨hlast, ?_⟩
    rw [hall, hlaw, events_cons, printed_append, List.append_assoc (s.text ++ _)]

theorem ready_reset (hF : F.Queue contents) : Ready contents (reset F) := by
  refine ⟨rfl, rfl, rfl, ?_⟩
  have hnone : contents (reset F).wfifo = [] := hF.reset
  rw [hnone]
  exact Nat.zero_le 64

def powerUp (F : Scfifo φ) {σ : Type} (p : σ) : System σ φ := ⟨p, reset F, []⟩

/-- The host has got, or is still to get, all of the text in order, and no byte was dropped. -/
def Delivered (F : Scfifo φ) (contents : φ → List Byte) {σ : Type} (ms : List Move)
    (s : System σ φ) : Prop :=
  s.uart.woverflow = false ∧ s.text ++ s.uart.underway F contents = printed (events ms)

theorem delivered_powerUp (hF : F.Queue contents) (hstp : Bodied driven stp todo) {p : σ}
    (hp : ∀ x ∈ todo p, driven x = true) {s : System σ φ} {ms : List Move}
    (h : run (linkStep F stp) (powerUp F p) ms = some s) : Delivered F contents ms s := by
  have hfed : Fed F contents (todo p) (reset F) := fed_driven hp (ready_reset hF)
  obtain ⟨hlast, hall⟩ := fed_run hF hstp hfed h
  have hnone : (reset F).underway F contents = [] := hF.reset
  refine ⟨hlast.ready.whole, ?_⟩
  rw [hall, powerUp, hnone]
  rfl

theorem driven_of_body {s : Stmt} (h : onBoard s = true ∨ onLink s = true ∨ s = .pollRrdy) :
    driven s = true := by
  obtain hboard | hlink | rfl := h
  · cases s with
    | act a => cases a <;> first | rfl | cases hboard
    | _ => rfl
  · cases s with
    | act a => cases a <;> first | rfl | cases hlink
    | _ => rfl
  · rfl

/-- Whenever the host takes its bytes, however long it leaves the FIFO full, and whatever it
sends itself: every function body that prints through the driver, and `main`, put what they
print on the link, whole and in order. -/
theorem console_delivered (hF : F.Queue contents) {ms : List Move} :
    (∀ (body : List Stmt) s, (∀ x ∈ body, driven x = true) →
      run (linkStep F callStep) (powerUp F body) ms = some s → Delivered F contents ms s) ∧
    (∀ s, run (linkStep F (step Networked.main)) (powerUp F Networked.boot) ms = some s →
      Delivered F contents ms s) := by
  refine ⟨fun body s hbody h => delivered_powerUp hF (bodied_call driven) hbody h,
    fun s h => delivered_powerUp hF (bodied_main fun k b x hx => ?_) (fun x hx => ?_) h⟩
  · exact driven_of_body (Menu.loop_devices k b x hx)
  · exact driven_of_body (Menu.start_devices x hx)

/-- A FIFO that is a list, with its output register. -/
def listFifo : Scfifo (List Byte × Byte) where
  reset := ([], 0)
  step s wrreq rdreq data :=
    ((if rdreq then s.1.tail else s.1) ++ if wrreq then [data] else [],
      if rdreq then s.1.headD s.2 else s.2)
  full s := s.1.length == 64
  empty s := s.1.isEmpty
  usedw s := BitVec.ofNat 6 s.1.length
  q s := s.2

theorem listFifo_queue : listFifo.Queue Prod.fst where
  reset := rfl
  full s := beq_iff_eq
  empty s h := by simp [listFifo, h]
  usedw s := rfl
  step s wrreq rdreq data _ _ := rfl
  q s wrreq data b l h := by simp [listFifo, h]

/-- The letter 'A' on its way to a host that asks for it in every clock. -/
def linkA : List Move :=
  have host : Host := ⟨true, false, false, 0⟩
  [.own (.jtagControl 0x402000) host host, .own (.act (.jtagData 0x41)) host host, .wait host,
    .wait host, .wait host]

theorem console_delivered_A : ∃ s : System (List Stmt) (List Byte × Byte),
    run (linkStep listFifo callStep) (powerUp listFifo (altPrintf "A")) linkA = some s ∧
      s.text = ascii "A" ∧ Delivered listFifo Prod.fst linkA s := by
  have hrun : (run (linkStep listFifo callStep) (powerUp listFifo (altPrintf "A")) linkA).map
      System.text = some (ascii "A") := by decide +kernel
  obtain ⟨s, hs, htext⟩ := Option.map_eq_some_iff.mp hrun
  exact ⟨s, hs, htext, (console_delivered listFifo_queue).1 (altPrintf "A") s (by decide) hs⟩

end JtagUart
