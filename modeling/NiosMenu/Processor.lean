import NiosMenu.Board
import NiosMenu.UartPort

/-!
# The program on the processor

The processor makes the device accesses of its program on the port of the data master, keeps
each one there while it has to wait, and gives the program the word that the bus returns. So the
program runs as it does on the board, however long its accesses are on their way, and what holds
of the board holds of processor, bus and UART together.
-/
namespace Processor

open CommandMux MasterPort Avalon UartPort
open SlavePort (Stored)
open Firmware (Event Stmt Word)
open Interconnect (Slave owner UART_0_BASE LEDS_BASE PUSHBUTTON_BASE JTAG_BASE)

/-! ## The accesses of the program -/

/-- What the program does with an access of the data master that ends with the given word. -/
def eventOf (r : Request) (d : Word) : Option Event :=
  if r.read then
    if r.address.toNat = UART_0_BASE + 4 * 0 then some (.rxdata d)
    else if r.address.toNat = UART_0_BASE + 4 * 2 then some (.status d)
    else if r.address.toNat = PUSHBUTTON_BASE + 4 * 0 then some (.button d)
    else if r.address.toNat = JTAG_BASE + 4 * 1 then some (.jtagControl d)
    else none
  else if r.write then
    if r.address.toNat = UART_0_BASE + 4 * 1 then some (.act (.txdata r.writedata))
    else if r.address.toNat = LEDS_BASE + 4 * 0 then some (.act (.leds r.writedata))
    else if r.address.toNat = JTAG_BASE + 4 * 0 then
      some (.act (.jtagData (Firmware.low r.writedata)))
    else none
  else none

/-- The data master goes to a device, not to the memory or the debugger. -/
def asks (r : Request) : Bool := (r.read || r.write) && (owner dataMaster r.address.toNat r.read).io

/-- An event without the word that it reads. -/
def blank : Event → Event
  | .rxdata _ => .rxdata 0
  | .status _ => .status 0
  | .button _ => .button 0
  | .jtagControl _ => .jtagControl 0
  | e => e

/-- What an event of the program is at the UART. -/
def uartOutcome : Event → Option Outcome
  | .rxdata v => some (.read 0, some v)
  | .status v => some (.read 2, some v)
  | .act (.txdata d) => some (.write 1 (d.setWidth 16), none)
  | _ => none

variable {r : Request} {d d' : Word} {e e' : Event}

/-- The addresses are those of `system.h`. -/
theorem eventOf_access (h : eventOf r d = some e) :
    Interconnect.access e = some (r.address.toNat, r.read) := by
  unfold eventOf at h
  split_ifs at h
  all_goals
    obtain rfl := Option.some.inj h
    simp [Interconnect.access, *]

theorem access_io {a : Nat} {rd : Bool} (h : Interconnect.access e = some (a, rd)) :
    (owner dataMaster a rd).io = true := by
  cases e with
  | act a => cases a <;> cases h <;> rfl
  | _ => cases h <;> rfl

theorem eventOf_asks (h : eventOf r d = some e) : asks r = true := by
  have hoffers : (r.read || r.write) = true := by
    unfold eventOf at h
    split_ifs at h <;> simp [*]
  rw [asks, hoffers, access_io (eventOf_access h)]
  rfl

theorem eventOf_blank (r : Request) (d d' : Word) :
    (eventOf r d).map blank = (eventOf r d').map blank := by
  unfold eventOf
  split_ifs <;> rfl

/-- An access that the UART gets, or one that it does not see. -/
theorem eventOf_cases (h : eventOf r d = some e) :
    (e = .rxdata d ∧ r.read = true ∧ r.address.toNat = 0x11020) ∨
    (e = .status d ∧ r.read = true ∧ r.address.toNat = 0x11028) ∨
    (e = .act (.txdata r.writedata) ∧ r.read = false ∧ r.address.toNat = 0x11024) ∨
    (owner dataMaster r.address.toNat r.read ≠ .uart ∧ Board.cycle e = .idle) := by
  unfold eventOf at h
  split_ifs at h with hread h₁ h₂ h₃ h₄ hwrite h₅ h₆ h₇
  · exact .inl ⟨(Option.some.inj h).symm, hread, h₁⟩
  · exact .inr (.inl ⟨(Option.some.inj h).symm, hread, h₂⟩)
  · obtain rfl := Option.some.inj h
    exact .inr (.inr (.inr ⟨by rw [h₃]; cases r.read <;> decide, rfl⟩))
  · obtain rfl := Option.some.inj h
    exact .inr (.inr (.inr ⟨by rw [h₄]; cases r.read <;> decide, rfl⟩))
  · exact .inr (.inr (.inl ⟨(Option.some.inj h).symm, by simpa using hread, h₅⟩))
  · obtain rfl := Option.some.inj h
    exact .inr (.inr (.inr ⟨by rw [h₆]; cases r.read <;> decide, rfl⟩))
  · obtain rfl := Option.some.inj h
    exact .inr (.inr (.inr ⟨by rw [h₇]; cases r.read <;> decide, rfl⟩))

theorem idle_iff : Board.cycle e = .idle ↔ uartOutcome e = none := by
  cases e with
  | act a => cases a <;> simp [Board.cycle, uartOutcome]
  | _ => simp [Board.cycle, uartOutcome]

/-- What ends at the UART for the data master is what the program does there. -/
theorem carried_event (h : eventOf r d = some e) :
    (([access r d].map (carried dataMaster)).filter fun t => t.slave = .uart).map outcome =
      (uartOutcome e).toList := by
  rw [List.map_singleton, carried_access]
  obtain ⟨rfl, hread, haddress⟩ | ⟨rfl, hread, haddress⟩ | ⟨rfl, hread, haddress⟩ |
    ⟨helse, hidle⟩ := eventOf_cases h
  · rw [hread, haddress]
    rfl
  · rw [hread, haddress]
    rfl
  · rw [hread, haddress]
    rfl
  · rw [idle_iff.mp hidle, List.filter_cons_of_neg (by simpa using helse)]
    rfl

/-- The same access with the same outcome is the same event. -/
theorem eventOf_outcome {o : Outcome} (h : eventOf r d = some e) (h' : eventOf r d' = some e')
    (ho : uartOutcome e = some o) (ho' : uartOutcome e' = some o) : e = e' := by
  unfold eventOf at h h'
  split_ifs at h h' <;> obtain rfl := Option.some.inj h <;> obtain rfl := Option.some.inj h'
  · obtain rfl := Option.some.inj ho
    obtain rfl : d' = d := by simpa [uartOutcome] using ho'
    rfl
  · obtain rfl := Option.some.inj ho
    obtain rfl : d' = d := by simpa [uartOutcome] using ho'
    rfl
  · cases ho
  · cases ho
  · rfl
  · rfl
  · rfl

/-- The command of a port with nothing under way, as the UART gets it. -/
theorem asked_stamped {s : Avalon.State} {x : Avalon.Inputs} {i : Fin 2}
    (hidle : (s.master i).underway = false) :
    asked ⟨true, Interconnect.stamped i (s.sinks x i).beat⟩ =
      let a := BitVec.ofNat 3 ((x.master i).address.toNat / 4 % 2 ^ 3)
      if (x.master i).read then .read a else .write a ((x.master i).writedata.setWidth 16) := by
  have hread : Interconnect.read (Interconnect.stamped i (s.sinks x i).beat) =
      (x.master i).read := (read_stamped s x i).trans (uavRead_idle hidle)
  rw [asked, hread, address_stamped, toNat_aligned, writedata_stamped,
    Nat.mul_div_cancel_left _ (by decide)]

theorem asked_event {s : Avalon.State} {x : Avalon.Inputs}
    (hidle : (s.master dataMaster).underway = false)
    (huart : owner dataMaster (x.master dataMaster).address.toNat (x.master dataMaster).read =
      .uart) (h : eventOf (x.master dataMaster) d = some e) :
    Board.cycle e =
      .first (asked ⟨true, Interconnect.stamped dataMaster (s.sinks x dataMaster).beat⟩) := by
  rw [asked_stamped hidle]
  obtain ⟨rfl, hread, haddress⟩ | ⟨rfl, hread, haddress⟩ | ⟨rfl, hread, haddress⟩ |
    ⟨helse, -⟩ := eventOf_cases h
  · rw [hread, haddress]
    rfl
  · rw [hread, haddress]
    rfl
  · rw [hread, haddress]
    rfl
  · exact absurd huart helse

/-! ## Bus and UART, clock by clock -/

/-- The instruction master fetches elsewhere. -/
def Apart (x : Avalon.Inputs) : Prop :=
  (x.master instructionMaster).read = true →
    owner instructionMaster (x.master instructionMaster).address.toNat true ≠ .uart

instance decidableApart (x : Avalon.Inputs) : Decidable (Apart x) :=
  inferInstanceAs (Decidable (_ → _))

section Bus

variable {s : Avalon.State} {x : Avalon.Inputs} {o : Slave → Option (Fin 2 × Stored)}

theorem destination_owner {i : Fin 2} (hidle : (s.master i).underway = false) :
    s.destination x i = owner i (x.master i).address.toNat (x.master i).read := by
  rw [destination_eq, uavRead_idle hidle, toNat_aligned, owner_aligned]

theorem instruction_apart (hfits : Fits s x) (hapart : Apart x)
    (hvalid : (s.sinks x instructionMaster).valid = true) :
    s.destination x instructionMaster ≠ .uart := by
  have hidle := valid_idle hfits hvalid
  have hread : (x.master instructionMaster).read = true := by
    obtain hwrite | hread := Bool.or_eq_true_iff.mp (Bool.and_eq_true_iff.mp hvalid).1
    · cases (Bool.and_eq_true_iff.mp hwrite).1
    · exact (Bool.and_eq_true_iff.mp hread).1
  rw [destination_owner hidle, hread]
  exact hapart hread

/-- What the bus offers to the UART is the command of the data master. -/
theorem cp_data (h : Inv s o) (hfits : Fits s x) (hapart : Apart x)
    (hvalid : (s.cp x .uart).valid = true) :
    (s.sinks x dataMaster).valid = true ∧ s.destination x dataMaster = .uart ∧
      s.cp x .uart = ⟨true, Interconnect.stamped dataMaster (s.sinks x dataMaster).beat⟩ := by
  obtain ⟨i, hi, hdest, hcp, -⟩ | ⟨hnone, -⟩ := cp_serves (x := x) h.sound .uart
  · fin_cases i
    · exact ⟨hi, hdest, hcp⟩
    · exact absurd hdest (instruction_apart hfits hapart hi)
  · rw [hnone] at hvalid
    cases hvalid

/-- What the UART serves it serves for the data master. -/
theorem served_data (h : Inv s o) (hfits : Fits s x) (hapart : Apart x)
    (y : Option Avalon.Inputs) :
    (s.servedFor x y dataMaster).filter (fun t => t.slave = .uart) = s.served x y .uart := by
  have hnone : (s.served x y .uart).filter (fun t => t.master = instructionMaster) = [] :=
    served_elsewhere h y fun ⟨haccepts, hdest⟩ =>
      instruction_apart hfits hapart (Bool.and_eq_true_iff.mp haccepts).1 hdest
  have hall : ∀ t ∈ s.served x y .uart, t.master = dataMaster := by
    intro t ht
    have hother := List.filter_eq_nil_iff.mp hnone t ht
    obtain ⟨i, k, a⟩ := t
    fin_cases i
    · rfl
    · exact absurd (decide_eq_true rfl) hother
  rw [State.servedFor, List.filter_comm, served_slave]
  exact List.filter_eq_self.mpr fun t ht => decide_eq_true (hall t ht)

end Bus

/-- Bus and UART, with the accesses of the data master that have begun at the UART and have still
to end for the processor. -/
inductive Port (y : System) (v : Uart.Slave) (next : Option Avalon.Inputs) : List Outcome → Prop
  | mk {w : Slave → Option (Fin 2 × Stored)} {mid : Bool} {late : List Outcome}
      {ends : List Transfer} : Inv y.bus w → (∀ x ∈ next, Fits y.bus (y.inputs x)) →
      Agree y.uart v.uart → Phase y v.last next mid late →
      Owes y.bus (next.map y.inputs) dataMaster ends →
      Port y v next ((ends.filter fun t => t.slave = .uart).map outcome ++ late)

section Clock

variable {y : System} {v : Uart.Slave} {x : Avalon.Inputs} {pend : List Outcome}

theorem port_start {next : Option Avalon.Inputs} (h : ∀ x ∈ next, (start.inputs x).proper) :
    Port start Uart.start next [] :=
  .mk inv_reset (fun x hx => fits_reset (h x hx)) agree_start (phase_start next)
    (owes_nothing _ rfl)

theorem port_agree {next : Option Avalon.Inputs} (h : Port y v next pend) :
    Agree y.uart v.uart := by
  obtain ⟨-, -, hagree, -, -⟩ := h
  exact hagree

/-- The processor keeps to the protocol in the next clock. -/
def Keeps (y : System) (x : Avalon.Inputs × Bool) (next : Option Avalon.Inputs) : Prop :=
  ∀ z ∈ next, ((y.step Uart.divisorConstant x).inputs z).proper ∧
    y.bus.holds (y.inputs x.1) ((y.step Uart.divisorConstant x).inputs z)

/-- What ends at the UART for the processor in a clock. -/
def ended (y : System) (x : Avalon.Inputs) : List Outcome :=
  (((y.bus.completed (y.inputs x) dataMaster).map (carried dataMaster)).filter
    fun t => t.slave = .uart).map outcome

/-- One clock: what begins at the UART ends for the processor then or later, in order. -/
theorem port_step (h : Port y v (some x) pend) (hapart : Apart x) (rxd : Bool)
    {next : Option Avalon.Inputs} (hnext : Keeps y (x, rxd) next) :
    ∃ pend', Port (y.step Uart.divisorConstant (x, rxd))
      (v.step Uart.divisorConstant (y.cycle x, rxd)) next pend' ∧
      pend ++ begun v.uart (y.cycle x) = ended y x ++ pend' := by
  obtain ⟨hinv, hfits, hagree, hphase, howes⟩ := h
  have hfit := hfits x rfl
  have hlater : ∀ z ∈ next.map (y.step Uart.divisorConstant (x, rxd)).inputs,
      z.proper ∧ y.bus.holds (y.inputs x) z := by
    intro z hz
    obtain ⟨z, hmem, rfl⟩ := Option.map_eq_some_iff.mp hz
    exact hnext z hmem
  have hholds : ∀ z ∈ next, y.bus.holds (y.inputs x)
      ((y.step Uart.divisorConstant (x, rxd)).inputs z) := fun z hz => (hnext z hz).2
  obtain ⟨later, hlaterOwes, hserved⟩ := owes_step hinv hfit howes hlater
  obtain ⟨mid', late', hphase', hagree', hbegun, -⟩ :=
    phase_step hinv hfit hagree hphase next hholds
      (next.map (y.step Uart.divisorConstant (x, rxd)).inputs)
  refine ⟨_, .mk (inv_step hinv hfit) (fun z hz => ?_) hagree' hphase' hlaterOwes, ?_⟩
  · exact fits_step hinv hfit (hnext z hz).1 (hnext z hz).2
  · have huart := served_data hinv hfit hapart
      (next.map (y.step Uart.divisorConstant (x, rxd)).inputs)
    have hall := congrArg (fun l => (l.filter fun t => t.slave = .uart).map outcome) hserved
    simp only [List.filter_append, List.map_append, huart] at hall
    rw [List.append_assoc, hbegun, ← List.append_assoc, hall, List.append_assoc]
    rfl

/-- An access that begins at the UART is the one that the data master asks for, and it is the only
one under way. -/
theorem port_first (h : Port y v (some x) pend) (hapart : Apart x) {a : Uart.Access}
    (hfirst : y.cycle x = .first a) : pend = [] ∧ asks (x.master dataMaster) = true ∧
      ∀ d e, eventOf (x.master dataMaster) d = some e → Board.cycle e = .first a := by
  obtain ⟨hinv, hfits, -, hphase, howes⟩ := h
  have hfit := hfits x rfl
  obtain ⟨-, -, hcycle⟩ | ⟨hvalid, rfl, hcycle⟩ | ⟨-, -, hcycle⟩ := phase_cycle hinv hfit hphase
  · rw [hcycle] at hfirst
    cases hfirst
  · obtain ⟨hsinks, hdest, hcp⟩ := cp_data hinv hfit hapart hvalid
    have hidle := valid_idle hfit hsinks
    have howner := (destination_owner hidle).symm.trans hdest
    rw [hcycle] at hfirst
    obtain rfl := Uart.Cycle.first.inj hfirst
    refine ⟨by rw [howes.idle hidle]; rfl, ?_, fun d e he => ?_⟩
    · have hoffers : ((x.master dataMaster).read || (x.master dataMaster).write) = true := by
        obtain hwrite | hread := Bool.or_eq_true_iff.mp (Bool.and_eq_true_iff.mp hsinks).1
        · have hpre := (Bool.and_eq_true_iff.mp hwrite).1
          exact Bool.or_eq_true_iff.mpr (.inr hpre)
        · exact Bool.or_eq_true_iff.mpr (.inl (Bool.and_eq_true_iff.mp hread).1)
      have howner : owner dataMaster (x.master dataMaster).address.toNat
          (x.master dataMaster).read = .uart := howner
      rw [asks, hoffers, howner]
      rfl
    · rw [hcp]
      exact asked_event hidle howner he
  · rw [hcycle] at hfirst
    cases hfirst

/-- In the second clock of an access it is still under way. -/
theorem port_again (h : Port y v (some x) pend) (hagain : y.cycle x = .again) : pend ≠ [] := by
  obtain ⟨hinv, hfits, -, hphase, -⟩ := h
  obtain ⟨-, -, hcycle⟩ | ⟨-, -, hcycle⟩ | ⟨-, hlate, -⟩ := phase_cycle hinv (hfits x rfl) hphase
  · rw [hcycle] at hagain
    cases hagain
  · rw [hcycle] at hagain
    cases hagain
  · exact fun hnone => hlate (List.append_eq_nil_iff.mp hnone).2

end Clock

/-! ## The processor -/

/-- What the ports of the processor and the other devices put on the bus in a clock, the
synchronized level of rxd, and what the program does without the bus. -/
structure Clock where
  inputs : Avalon.Inputs
  rxd : Bool
  own : Option Event

def Clock.request (c : Clock) : Request := c.inputs.master dataMaster
def Clock.line (c : Clock) : Avalon.Inputs × Bool := (c.inputs, c.rxd)

/-- The program, the clocks since its last event, and bus and UART. -/
structure State (σ : Type) where
  program : σ
  waited : Nat
  system : System

/-- The word on the data master, and whether its access ends. -/
def word (y : System) (x : Avalon.Inputs) : Word := y.bus.readdata (y.inputs x) dataMaster
def done (y : System) (x : Avalon.Inputs) : Bool := y.bus.completes (y.inputs x) dataMaster

/-- What the program does in a clock. -/
def event (y : System) (c : Clock) : Option Event :=
  if asks c.request then
    if done y c.inputs then eventOf c.request (word y c.inputs) else none
  else c.own

/-- A pause ends when its time is over. -/
def rested (waited : Nat) : Event → Bool
  | .act (.usleep us) => decide (Transmit.usleepClocks * us ≤ waited)
  | _ => true

variable {σ : Type} {stp : σ → Event → Option σ} {todo : σ → List Stmt}

/-- The data master asks a device only for the access that the program is at, and the program goes
on when that has ended. -/
def step (stp : σ → Event → Option σ) (s : State σ) (c : Clock) : Option (State σ) :=
  let system := s.system.step Uart.divisorConstant c.line
  if asks c.request then
    (eventOf c.request (word s.system c.inputs)).bind fun e => (stp s.program e).map fun p =>
      if done s.system c.inputs then ⟨p, 0, system⟩ else ⟨s.program, s.waited + 1, system⟩
  else
    match c.own with
    | none => some ⟨s.program, s.waited + 1, system⟩
    | some e =>
      if rested s.waited e && (Interconnect.access e).isNone then
        (stp s.program e).map fun p => ⟨p, 0, system⟩
      else none

def eventsAlong (y : System) : List Clock → List Event
  | [] => []
  | c :: cs => (event y c).toList ++ eventsAlong (y.step Uart.divisorConstant c.line) cs

/-- Everything that one clock can do. -/
theorem step_cases {s t : State σ} {c : Clock} (h : step stp s c = some t) :
    t.system = s.system.step Uart.divisorConstant c.line ∧
    ((∃ e p, asks c.request = true ∧ eventOf c.request (word s.system c.inputs) = some e ∧
        stp s.program e = some p ∧
        ((done s.system c.inputs = true ∧ event s.system c = some e ∧ t.program = p ∧
            t.waited = 0) ∨
          (done s.system c.inputs = false ∧ event s.system c = none ∧
            t.program = s.program ∧ t.waited = s.waited + 1))) ∨
      (asks c.request = false ∧ event s.system c = none ∧ t.program = s.program ∧
        t.waited = s.waited + 1) ∨
      (∃ e, asks c.request = false ∧ event s.system c = some e ∧ rested s.waited e = true ∧
        Interconnect.access e = none ∧ stp s.program e = some t.program ∧ t.waited = 0)) := by
  unfold step at h
  cases hasks : asks c.request with
  | true =>
    rw [if_pos hasks] at h
    obtain ⟨e, he, hmap⟩ := Option.bind_eq_some_iff.mp h
    obtain ⟨p, hp, ht⟩ := Option.map_eq_some_iff.mp hmap
    cases hdone : done s.system c.inputs with
    | true =>
      rw [if_pos hdone] at ht
      subst ht
      exact ⟨rfl, .inl ⟨e, p, rfl, he, hp, .inl ⟨rfl, by simp [event, hasks, hdone, he], rfl, rfl⟩⟩⟩
    | false =>
      rw [if_neg (by simp [hdone])] at ht
      subst ht
      exact ⟨rfl, .inl ⟨e, p, rfl, he, hp, .inr ⟨rfl, by simp [event, hasks, hdone], rfl, rfl⟩⟩⟩
  | false =>
    rw [if_neg (by simp [hasks])] at h
    cases hown : c.own with
    | none =>
      rw [hown] at h
      obtain rfl := Option.some.inj h
      exact ⟨rfl, .inr (.inl ⟨rfl, by simp [event, hasks, hown], rfl, rfl⟩)⟩
    | some e =>
      simp only [hown, Option.ite_none_right_eq_some, Bool.and_eq_true,
        Option.isNone_iff_eq_none] at h
      obtain ⟨⟨hrested, hnone⟩, hmap⟩ := h
      obtain ⟨p, hp, rfl⟩ := Option.map_eq_some_iff.mp hmap
      exact ⟨rfl, .inr (.inr ⟨e, rfl, by simp [event, hasks, hown], hrested, hnone, hp, rfl⟩)⟩

/-- Which access comes next does not depend on the word that it reads. -/
def Blind (stp : σ → Event → Option σ) : Prop :=
  ∀ p e, (stp p e).isSome = (stp p (blank e)).isSome

theorem micro_blank (s : Stmt) (e : Event) :
    (Firmware.micro s e).isSome = (Firmware.micro s (blank e)).isSome := by
  cases s <;> cases e <;> rfl

theorem blind_call : Blind Receive.callStep := by
  intro p e
  cases p with
  | nil => rfl
  | cons s rest => simp only [Receive.callStep, Option.isSome_map, micro_blank s e]

theorem blind_main : Blind (Reactive.step Networked.main) := by
  rintro ⟨todo, ctrl⟩ e
  cases todo with
  | nil => cases e <;> rfl
  | cons s rest =>
    simp only [Networked.main, Reactive.step_cons, Firmware.firmware_micro, Option.isSome_map,
      micro_blank s e]

theorem blind_some (hblind : Blind stp) {p : σ} (h : eventOf r d = some e)
    (h' : eventOf r d' = some e') (hsome : (stp p e).isSome = true) : (stp p e').isSome = true := by
  have hsame : blank e = blank e' := by
    have hall := eventOf_blank r d d'
    rw [h, h'] at hall
    exact Option.some.inj hall
  rw [hblind, ← hsame, ← hblind]
  exact hsome

/-! ## The events at the UART -/

theorem uartOutcome_blank (h : blank e = blank e') :
    (uartOutcome e).isSome = (uartOutcome e').isSome := by
  have hblank : ∀ f : Event, (uartOutcome f).isSome = (uartOutcome (blank f)).isSome := by
    intro f
    cases f <;> rfl
  rw [hblank e, h, ← hblank]

theorem cycle_own (h : Interconnect.access e = none) : Board.cycle e = .idle := by
  cases e with
  | act a => cases a <;> first | rfl | cases h
  | rxdata v => cases h
  | status v => cases h
  | _ => rfl

theorem setWidth_twice {n : Nat} (hn : n ≤ 16) (x : BitVec n) :
    (x.setWidth 16).setWidth 32 = x.setWidth 32 := by
  have hlt : x.toNat < 2 ^ 16 := lt_of_lt_of_le x.isLt (Nat.pow_le_pow_right (by decide) hn)
  apply BitVec.eq_of_toNat_eq
  rw [BitVec.toNat_setWidth, BitVec.toNat_setWidth, BitVec.toNat_setWidth, Nat.mod_eq_of_lt hlt]

/-- An access of the program that begins at the UART reads what the board answers. -/
theorem answers_begun {u : Uart.State} (hbegun : begun u (Board.cycle e) = (uartOutcome e).toList)
    {waited : Nat} (hrested : rested waited e = true) : Board.answers u waited e = true := by
  cases e with
  | act a => cases a <;> first | rfl | exact hrested
  | rxdata v =>
    have hv : (u.selectedReadData 0).setWidth 32 = v := by
      simpa [begun, uartOutcome, Board.cycle] using hbegun
    have hwide : (u.selectedReadData 0).setWidth 32 = u.line.rxData.setWidth 32 :=
      setWidth_twice (by decide) u.line.rxData
    rw [Board.answers, ← hv, hwide, beq_self_eq_true]
  | status v =>
    have hv : (u.selectedReadData 2).setWidth 32 = v := by
      simpa [begun, uartOutcome, Board.cycle] using hbegun
    have hwide : (u.selectedReadData 2).setWidth 32 = u.statusReg.setWidth 32 :=
      setWidth_twice (by decide) u.statusReg
    rw [Board.answers, ← hv, hwide, beq_self_eq_true]
  | _ => rfl

/-- An access has no time to wait for. -/
theorem rested_access (h : eventOf r d = some e) (waited : Nat) : rested waited e = true := by
  have haccess := eventOf_access h
  cases e with
  | act a => cases a <;> first | rfl | cases haccess
  | _ => rfl

/-- What an access that begins reads. -/
def shown (u : Uart.State) : Uart.Access → Word
  | .read a => (u.selectedReadData a).setWidth 32
  | .write _ _ => 0

theorem begun_event {u : Uart.State} {a : Uart.Access} (h : eventOf r (shown u a) = some e)
    (hcycle : Board.cycle e = .first a) : begun u (Board.cycle e) = (uartOutcome e).toList := by
  obtain ⟨rfl, -, -⟩ | ⟨rfl, -, -⟩ | ⟨rfl, -, -⟩ | ⟨-, hidle⟩ := eventOf_cases h
  · obtain rfl := Uart.Cycle.first.inj hcycle
    rfl
  · obtain rfl := Uart.Cycle.first.inj hcycle
    rfl
  · rfl
  · rw [hidle] at hcycle
    cases hcycle

section Ended

variable {y : System} {x : Avalon.Inputs}

theorem ended_done (hdone : done y x = true)
    (h : eventOf (x.master dataMaster) (word y x) = some e) :
    ended y x = (uartOutcome e).toList := by
  have hcompleted : y.bus.completed (y.inputs x) dataMaster =
      [access (x.master dataMaster) (word y x)] := if_pos hdone
  rw [ended, hcompleted]
  exact carried_event h

theorem ended_waiting (hdone : done y x = false) : ended y x = [] := by
  have hcompleted : y.bus.completed (y.inputs x) dataMaster = [] := if_neg (by
    rw [← Bool.not_eq_true] at hdone
    exact hdone)
  rw [ended, hcompleted]
  rfl

theorem asks_offers (h : asks (x.master dataMaster) = true) :
    ((x.master dataMaster).read || (port dataMaster).writePre (x.master dataMaster)) = true :=
  (Bool.and_eq_true_iff.mp h).1

/-- An access that waits is still asked for in the next clock. -/
theorem request_kept (hasks : asks (x.master dataMaster) = true) (hdone : done y x = false)
    {z : Avalon.Inputs} (hholds : y.bus.holds (y.inputs x) z) :
    z.master dataMaster = x.master dataMaster := by
  have hoffers := asks_offers hasks
  have hwait : y.bus.waitrequest (y.inputs x) dataMaster = true := by
    have hends : (((x.master dataMaster).read ||
        (port dataMaster).writePre (x.master dataMaster)) &&
          !y.bus.waitrequest (y.inputs x) dataMaster) = false := hdone
    rw [hoffers, Bool.true_and] at hends
    simpa using hends
  exact hholds dataMaster hoffers hwait

end Ended

/-! ## The processor follows the board -/

/-- The board is ahead of the processor by the access that has begun at the UART. -/
structure Follows (stp : σ → Event → Option σ) (s : State σ) (b : Board.System σ)
    (owe : Option Event) (next : Option Clock) : Prop where
  port : Port s.system b.slave (next.map Clock.inputs) (owe.bind uartOutcome).toList
  program : Reactive.run stp s.program owe.toList = some b.program
  waited : owe = none → s.waited ≤ b.waited
  asked : ∀ e ∈ owe, (uartOutcome e).isSome = true ∧
    ∀ c ∈ next, ∃ d, eventOf c.request d = some e

/-- A clock of the board without an event. -/
theorem board_wait (stp : σ → Event → Option σ) {cycle : Uart.Cycle}
    (h : ∀ a, cycle ≠ .first a) (b : Board.System σ) (rxd : Bool) :
    begun b.slave.uart cycle = [] ∧
      ∃ m, m.event = none ∧ m.clock = (cycle, rxd) ∧ Board.boardStep stp b m =
        some ⟨b.program, b.waited + 1, b.slave.step Uart.divisorConstant (cycle, rxd)⟩ := by
  cases cycle with
  | idle => exact ⟨rfl, .wait false rxd, rfl, rfl, rfl⟩
  | again => exact ⟨rfl, .wait true rxd, rfl, rfl, rfl⟩
  | first a => exact absurd rfl (h a)

theorem board_own {b : Board.System σ} {q : σ}
    (hbegun : begun b.slave.uart (Board.cycle e) = (uartOutcome e).toList)
    (hrested : rested b.waited e = true) (hq : stp b.program e = some q) (rxd : Bool) :
    Board.boardStep stp b (.own e rxd) =
      some ⟨q, 0, b.slave.step Uart.divisorConstant (Board.cycle e, rxd)⟩ := by
  rw [Board.boardStep, if_pos (answers_begun hbegun hrested), hq]
  rfl

section Step

variable {s t : State σ} {b : Board.System σ} {c : Clock} {next : Option Clock}

theorem asked_kept (hasks : asks c.request = true) (hdone : done s.system c.inputs = false)
    (hkeeps : Keeps s.system c.line (next.map Clock.inputs)) (he : eventOf c.request d = some e) :
    ∀ z ∈ next, ∃ d, eventOf z.request d = some e := by
  intro z hz
  have hholds := (hkeeps z.inputs (Option.mem_map_of_mem Clock.inputs hz)).2
  have hsame : z.request = c.request := request_kept hasks hdone hholds
  exact ⟨d, hsame ▸ he⟩

/-- While an access is under way nothing else begins: it ends now or stays under way. -/
theorem follows_owing (h : Follows stp s b (some e) (some c)) (hapart : Apart c.inputs)
    (hkeeps : Keeps s.system c.line (next.map Clock.inputs)) (hstep : step stp s c = some t) :
    ∃ m b' owe', Board.boardStep stp b m = some b' ∧
      m.clock = (s.system.cycle c.inputs, c.rxd) ∧ Follows stp t b' owe' next ∧
      [e] ++ m.event.toList = (event s.system c).toList ++ owe'.toList := by
  obtain ⟨hsome, hasked⟩ := h.asked e rfl
  obtain ⟨d, hd⟩ := hasked c rfl
  obtain ⟨o, ho⟩ := Option.isSome_iff_exists.mp hsome
  have hport : Port s.system b.slave (some c.inputs) [o] := by
    have hall := h.port
    rwa [Option.bind_some, ho] at hall
  have hfirst : ∀ a, s.system.cycle c.inputs ≠ .first a := fun a hcycle =>
    absurd (port_first hport hapart hcycle).1 (List.cons_ne_nil _ _)
  obtain ⟨hnone, m, hquiet, hclock, hboard⟩ := board_wait stp hfirst b c.rxd
  obtain ⟨pend, hport', hbalance⟩ := port_step hport hapart c.rxd hkeeps
  rw [hnone, List.append_nil] at hbalance
  have hprogram : stp s.program e = some b.program := by simpa using h.program
  obtain ⟨hsystem, ⟨f, p, hasks, hf, hp, ⟨hdone, hevent, htp, htw⟩ |
    ⟨hdone, hevent, htp, htw⟩⟩ | ⟨hasks, -⟩ | ⟨-, hasks, -⟩⟩ := step_cases hstep
  · -- the access ends, with the word that the UART has given for it
    have hblank := eventOf_blank c.request d (word s.system c.inputs)
    rw [hd, hf] at hblank
    obtain ⟨o', ho'⟩ := Option.isSome_iff_exists.mp
      ((uartOutcome_blank (Option.some.inj hblank)).symm.trans hsome)
    rw [ended_done hdone hf, ho', Option.toList_some, List.singleton_append] at hbalance
    obtain ⟨rfl, rfl⟩ := List.cons.inj hbalance
    obtain rfl := eventOf_outcome hd hf ho ho'
    refine ⟨m, _, none, hboard, hclock, ⟨?_, ?_, fun _ => ?_, by simp⟩, ?_⟩
    · rw [hsystem]
      exact hport'
    · rw [htp]
      exact hp.symm.trans hprogram
    · rw [htw]
      exact Nat.zero_le _
    · rw [hquiet, hevent]
      rfl
  · rw [ended_waiting hdone, List.nil_append] at hbalance
    subst hbalance
    refine ⟨m, _, some e, hboard, hclock, ⟨?_, ?_, fun h => (by cases h), ?_⟩, ?_⟩
    · rw [hsystem, Option.bind_some, ho]
      exact hport'
    · rw [htp]
      exact h.program
    · intro f hf
      obtain rfl := Option.some.inj hf
      exact ⟨hsome, asked_kept hasks hdone hkeeps hd⟩
    · rw [hquiet, hevent]
      rfl
  · cases (eventOf_asks hd).symm.trans hasks
  · cases (eventOf_asks hd).symm.trans hasks

/-- An access begins at the UART: on the board the program makes it now, with the word that the
register shows. -/
theorem follows_first (hblind : Blind stp) (h : Follows stp s b none (some c))
    (hapart : Apart c.inputs) (hkeeps : Keeps s.system c.line (next.map Clock.inputs))
    (hstep : step stp s c = some t) {a : Uart.Access}
    (hcycle : s.system.cycle c.inputs = .first a) :
    ∃ m b' owe', Board.boardStep stp b m = some b' ∧
      m.clock = (s.system.cycle c.inputs, c.rxd) ∧ Follows stp t b' owe' next ∧
      m.event.toList = (event s.system c).toList ++ owe'.toList := by
  obtain ⟨-, hasks, hevents⟩ := port_first h.port hapart hcycle
  obtain ⟨pend, hport', hbalance⟩ := port_step h.port hapart c.rxd hkeeps
  have hsame : b.program = s.program := (Option.some.inj h.program).symm
  obtain ⟨hsystem, ⟨f, p, -, hf, hp, hends⟩ | ⟨hnever, -⟩ | ⟨-, hnever, -⟩⟩ := step_cases hstep
  · -- the same access with what the UART shows for it
    have hblank := eventOf_blank c.request (word s.system c.inputs) (shown b.slave.uart a)
    rw [hf] at hblank
    obtain ⟨e, he, hfe⟩ := Option.map_eq_some_iff.mp hblank.symm
    have hecycle : Board.cycle e = .first a := hevents _ e he
    have hbegun : begun b.slave.uart (Board.cycle e) = (uartOutcome e).toList :=
      begun_event he hecycle
    rw [hcycle, ← hecycle] at hport'
    rw [hcycle, ← hecycle, hbegun, Option.bind_none, Option.toList_none,
      List.nil_append] at hbalance
    obtain ⟨o, ho⟩ : ∃ o, uartOutcome e = some o := by
      cases hnone : uartOutcome e with
      | some o => exact ⟨o, rfl⟩
      | none =>
        rw [idle_iff.mpr hnone] at hecycle
        cases hecycle
    have hclock : (Board.Move.own e c.rxd).clock = (s.system.cycle c.inputs, c.rxd) := by
      rw [hcycle, ← hecycle]
      rfl
    obtain ⟨hdone, hevent, htp, htw⟩ | ⟨hdone, hevent, htp, htw⟩ := hends
    · obtain ⟨o', ho'⟩ := Option.isSome_iff_exists.mp
        ((uartOutcome_blank hfe.symm).trans (Option.isSome_iff_exists.mpr ⟨o, ho⟩))
      rw [ended_done hdone hf, ho, ho', Option.toList_some, Option.toList_some,
        List.singleton_append] at hbalance
      obtain ⟨rfl, rfl⟩ := List.cons.inj hbalance
      obtain rfl := eventOf_outcome he hf ho ho'
      have hboard := board_own hbegun (rested_access he b.waited) (hsame ▸ hp) c.rxd
      refine ⟨.own e c.rxd, _, none, hboard, hclock, ⟨?_, ?_, fun _ => ?_, by simp⟩, ?_⟩
      · rw [hsystem]
        exact hport'
      · rw [htp]
        rfl
      · rw [htw]
      · rw [hevent]
        rfl
    · rw [ended_waiting hdone, List.nil_append] at hbalance
      subst hbalance
      obtain ⟨q, hq⟩ := Option.isSome_iff_exists.mp
        (blind_some hblind hf he (Option.isSome_iff_exists.mpr ⟨p, hp⟩))
      have hboard := board_own hbegun (rested_access he b.waited) (hsame ▸ hq) c.rxd
      refine ⟨.own e c.rxd, _, some e, hboard, hclock, ⟨?_, ?_, fun h => (by cases h), ?_⟩, ?_⟩
      · rw [hsystem]
        exact hport'
      · rw [htp]
        simpa using hq
      · intro g hg
        obtain rfl := Option.some.inj hg
        exact ⟨Option.isSome_iff_exists.mpr ⟨o, ho⟩, asked_kept hasks hdone hkeeps he⟩
      · rw [hevent]
        rfl
  · cases hasks.symm.trans hnever
  · cases hasks.symm.trans hnever

/-- A clock in which the program does something that the UART does not see. -/
theorem follows_own {rxd : Bool} (hport : Port t.system
      (b.slave.step Uart.divisorConstant (.idle, rxd)) (next.map Clock.inputs) [])
    (hidle : Board.cycle e = .idle) (hrested : rested b.waited e = true)
    (hprogram : stp b.program e = some t.program) (hwaited : t.waited = 0) :
    ∃ m b', Board.boardStep stp b m = some b' ∧ m.clock = (.idle, rxd) ∧ m.event = some e ∧
      Follows stp t b' none next := by
  have hbegun : begun b.slave.uart (Board.cycle e) = (uartOutcome e).toList := by
    rw [idle_iff.mp hidle, hidle]
    rfl
  have hboard := board_own hbegun hrested hprogram rxd
  rw [hidle] at hboard
  refine ⟨.own e rxd, _, hboard, by rw [Board.Move.clock, hidle], rfl, hport, rfl, fun _ => ?_,
    by simp⟩
  rw [hwaited]

theorem follows_rest {rxd : Bool} (hport : Port t.system
      (b.slave.step Uart.divisorConstant (.idle, rxd)) (next.map Clock.inputs) [])
    (hprogram : t.program = b.program) (hwaited : t.waited ≤ b.waited + 1) :
    ∃ m b', Board.boardStep stp b m = some b' ∧ m.clock = (.idle, rxd) ∧ m.event = none ∧
      Follows stp t b' none next :=
  ⟨.wait false rxd, _, rfl, rfl, rfl, hport, by rw [hprogram]; rfl, fun _ => hwaited, by simp⟩

theorem rested_more {waited more : Nat} (h : rested waited e = true) (hle : waited ≤ more) :
    rested more e = true := by
  cases e with
  | act a =>
    cases a with
    | usleep us => exact decide_eq_true ((of_decide_eq_true h).trans hle)
    | _ => rfl
  | _ => rfl

/-- Nothing of the program is under way at the UART, and nothing begins there. -/
theorem follows_idle (h : Follows stp s b none (some c)) (hapart : Apart c.inputs)
    (hkeeps : Keeps s.system c.line (next.map Clock.inputs)) (hstep : step stp s c = some t)
    (hcycle : s.system.cycle c.inputs = .idle) :
    ∃ m b', Board.boardStep stp b m = some b' ∧ m.clock = (.idle, c.rxd) ∧
      m.event = event s.system c ∧ Follows stp t b' none next := by
  obtain ⟨pend, hport, hbalance⟩ := port_step h.port hapart c.rxd hkeeps
  have hsame : b.program = s.program := (Option.some.inj h.program).symm
  have hwaited := h.waited rfl
  obtain ⟨hended, rfl⟩ : ended s.system c.inputs = [] ∧ pend = [] := by
    rw [hcycle] at hbalance
    exact List.append_eq_nil_iff.mp hbalance.symm
  rw [hcycle] at hport
  obtain ⟨hsystem, hcases⟩ := step_cases hstep
  rw [← Clock.line, ← hsystem] at hport
  obtain ⟨e, p, -, he, hp, ⟨hdone, hevent, htp, htw⟩ | ⟨-, hevent, htp, htw⟩⟩ |
    ⟨-, hevent, htp, htw⟩ | ⟨e, -, hevent, hrested, hnone, hp, htw⟩ := hcases
  · -- an access to another device ends
    have hother : uartOutcome e = none := by
      rw [ended_done hdone he] at hended
      exact Option.toList_eq_nil_iff.mp hended
    rw [hevent]
    exact follows_own hport (idle_iff.mpr hother) (rested_access he b.waited)
      (by rw [hsame, htp, hp]) htw
  · rw [hevent]
    exact follows_rest hport (htp.trans hsame.symm) (by omega)
  · rw [hevent]
    exact follows_rest hport (htp.trans hsame.symm) (by omega)
  · rw [hevent]
    exact follows_own hport (cycle_own hnone) (rested_more hrested hwaited) (hsame ▸ hp) htw

/-- A clock of the processor is one of the board, which is ahead by what is under way. -/
theorem follows_step (hblind : Blind stp) {owe : Option Event} (h : Follows stp s b owe (some c))
    (hapart : Apart c.inputs) (hkeeps : Keeps s.system c.line (next.map Clock.inputs))
    (hstep : step stp s c = some t) :
    ∃ m b' owe', Board.boardStep stp b m = some b' ∧
      m.clock = (s.system.cycle c.inputs, c.rxd) ∧ Follows stp t b' owe' next ∧
      owe.toList ++ m.event.toList = (event s.system c).toList ++ owe'.toList := by
  cases owe with
  | some e => exact follows_owing h hapart hkeeps hstep
  | none =>
    cases hcycle : s.system.cycle c.inputs with
    | first a => exact hcycle ▸ follows_first hblind h hapart hkeeps hstep hcycle
    | again => exact absurd rfl (port_again h.port hcycle)
    | idle =>
      obtain ⟨m, b', hboard, hclock, hevent, hnext⟩ := follows_idle h hapart hkeeps hstep hcycle
      exact ⟨m, b', none, hboard, hclock, hnext, by simp [hevent]⟩

end Step

/-! ## Runs -/

/-- The processor at power-up with a program. -/
def powerUp (p : σ) : State σ := ⟨p, 0, start⟩

def lines (cs : List Clock) : List (Avalon.Inputs × Bool) := cs.map Clock.line

/-- The processor holds an access while it has to wait, and fetches elsewhere. -/
structure Lawful (cs : List Clock) : Prop where
  holds : holdsAlong Avalon.reset (inputsAlong Uart.divisorConstant start (lines cs))
  apart : ∀ c ∈ cs, Apart c.inputs

theorem head_lines (cs : List Clock) :
    (lines cs).head?.map Prod.fst = cs.head?.map Clock.inputs := by
  cases cs <;> rfl

theorem keeps_head {y : System} {c : Clock} {cs : List Clock}
    (h : holdsAlong y.bus (inputsAlong Uart.divisorConstant y (lines (c :: cs)))) :
    Keeps y c.line (cs.head?.map Clock.inputs) := by
  intro z hz
  rw [← head_lines] at hz
  obtain ⟨x, hx, rfl⟩ := Option.map_eq_some_iff.mp hz
  exact kept_head h _ (mem_inputsAlong Uart.divisorConstant _ hx)

theorem rxds_cycles (y : System) (cs : List Clock) :
    (cyclesAlong Uart.divisorConstant y (lines cs)).map Prod.snd = cs.map Clock.rxd := by
  induction cs generalizing y with
  | nil => rfl
  | cons c cs ih => exact congrArg (c.rxd :: ·) (ih _)

theorem follows_run (hblind : Blind stp) {s t : State σ} {b : Board.System σ} {owe : Option Event}
    {cs : List Clock} (h : Follows stp s b owe cs.head?)
    (hholds : holdsAlong s.system.bus (inputsAlong Uart.divisorConstant s.system (lines cs)))
    (hapart : ∀ c ∈ cs, Apart c.inputs) (hrun : Reactive.run (step stp) s cs = some t) :
    ∃ ms b' owe', Reactive.run (Board.boardStep stp) b ms = some b' ∧
      Board.clocks ms = cyclesAlong Uart.divisorConstant s.system (lines cs) ∧
      Follows stp t b' owe' none ∧
      owe.toList ++ Board.events ms = eventsAlong s.system cs ++ owe'.toList := by
  induction cs generalizing s b owe with
  | nil =>
    obtain rfl := Option.some.inj hrun
    exact ⟨[], b, owe, rfl, rfl, h, List.append_nil _⟩
  | cons c cs ih =>
    obtain ⟨u, hu, hrest⟩ := Option.bind_eq_some_iff.mp hrun
    obtain ⟨hfirst, hlater⟩ := List.forall_mem_cons.mp hapart
    obtain ⟨m, b₁, owe₁, hboard, hclock, hnext, hevents⟩ :=
      follows_step hblind h hfirst (keeps_head hholds) hu
    have hsystem := (step_cases hu).1
    obtain ⟨ms, b', owe', hboards, hclocks, hlast, hall⟩ :=
      ih hnext (hsystem ▸ hholds.2.2) hlater hrest
    refine ⟨m :: ms, b', owe', ?_, ?_, hlast, ?_⟩
    · rw [Reactive.run_cons, hboard]
      exact hboards
    · rw [Board.clocks, List.map_cons, hclock, ← Board.clocks, hclocks, hsystem]
      rfl
    · rw [Board.events_cons, ← List.append_assoc, hevents, List.append_assoc, hall, hsystem,
        eventsAlong, List.append_assoc]

/-- What the program does on the processor it does on the board with the same UART, where the
access under way has been made already. -/
theorem board_run (hblind : Blind stp) {p : σ} {s : State σ} {cs : List Clock} (hlawful : Lawful cs)
    (hrun : Reactive.run (step stp) (powerUp p) cs = some s) :
    ∃ ms b late, Reactive.run (Board.boardStep stp) (Board.powerUp p) ms = some b ∧
      Board.clocks ms = cyclesAlong Uart.divisorConstant start (lines cs) ∧
      Agree s.system.uart b.slave.uart ∧
      Board.events ms = eventsAlong start cs ++ Option.toList late ∧
      (Reactive.run stp s.program (Option.toList late)).isSome = true := by
  have hproper : ∀ x ∈ cs.head?.map Clock.inputs, (start.inputs x).proper := by
    intro x hx
    rw [← head_lines] at hx
    obtain ⟨z, hz, rfl⟩ := Option.map_eq_some_iff.mp hx
    exact proper_head hlawful.holds _ (mem_inputsAlong Uart.divisorConstant start hz)
  have hfirst : Follows stp (powerUp p) (Board.powerUp p) none cs.head? :=
    ⟨port_start hproper, rfl, fun _ => Nat.le_refl 0, by simp⟩
  obtain ⟨ms, b, late, hboard, hclocks, hlast, hevents⟩ :=
    follows_run hblind hfirst hlawful.holds hlawful.apart hrun
  refine ⟨ms, b, late, hboard, hclocks, port_agree hlast.port, hevents, ?_⟩
  rw [hlast.program]
  rfl

/-- The levels of txd after each clock. -/
def txds (cs : List Clock) : List Bool := levelsAlong Uart.divisorConstant start (lines cs)

theorem txds_cycles {cs : List Clock} (hlawful : Lawful cs) :
    txds cs = Uart.txds Uart.divisorConstant Uart.start
      (cyclesAlong Uart.divisorConstant start (lines cs)) :=
  (phase_run Uart.divisorConstant (lines cs) inv_reset
    (fits_start Uart.divisorConstant hlawful.holds) hlawful.holds agree_start (phase_start _)).2.2.1

/-! ## Sending -/

/-- The line carries one frame for each byte that some events write, with at most two still to
come, and no write has found the transmitter occupied. -/
def Sent (s : State σ) (cs : List Clock) (es : List Event) : Prop :=
  s.system.uart.tx.txOverrun = false ∧
  ∃ rest, rest.length ≤ 2 * UartTx.frameClocks Uart.divisorConstant + 3 ∧
    SerialLine.Sends (· = UartTx.bitTimes Uart.divisorConstant) (txds cs ++ rest)
      (AtStream.txBytes es)

theorem sent_run (hblind : Blind stp) (hstp : Transmit.Scripted stp todo) {p : σ}
    (hp : Transmit.Tame (todo p)) {s : State σ} {cs : List Clock} (hlawful : Lawful cs)
    (hrun : Reactive.run (step stp) (powerUp p) cs = some s) :
    ∃ late, (Reactive.run stp s.program (Option.toList late)).isSome = true ∧
      Sent s cs (eventsAlong start cs ++ Option.toList late) := by
  obtain ⟨ms, b, late, hboard, hclocks, hagree, hevents, hlate⟩ := board_run hblind hlawful hrun
  obtain ⟨hoverrun, hsends, -⟩ := Board.carried_powerUp hstp hp hboard
  rw [hclocks, ← txds_cycles hlawful, hevents] at hsends
  exact ⟨late, hlate, hagree.tx ▸ hoverrun, hsends⟩

/-- From the program over the bus to the line: in every sequence of calls of the sending functions
and every run of `main`, the line carries what the program writes, the access under way
included. -/
theorem program_sent :
    (∀ (calls : List Transmit.Call) cs s, Lawful cs →
      Reactive.run (step Receive.callStep) (powerUp (calls.flatMap Transmit.Call.code)) cs =
        some s →
      ∃ late, (Reactive.run Receive.callStep s.program (Option.toList late)).isSome = true ∧
        Sent s cs (eventsAlong start cs ++ Option.toList late)) ∧
    (∀ cs s, Lawful cs →
      Reactive.run (step (Reactive.step Networked.main)) (powerUp Networked.boot) cs = some s →
      ∃ late, (Reactive.run (Reactive.step Networked.main) s.program
          (Option.toList late)).isSome = true ∧
        Sent s cs (eventsAlong start cs ++ Option.toList late)) :=
  ⟨fun calls _ _ hlawful hrun => sent_run blind_call Transmit.scripted_call
      (Transmit.tame_calls calls) hlawful hrun,
    fun _ _ hlawful hrun => sent_run blind_main Transmit.scripted_main Transmit.tame_start hlawful
      hrun⟩

/-- The data master sends the letter 'A', or reads the status. -/
def sendA (writes : Bool) : Clock := ⟨(sending writes).1, true, none⟩

/-- A call that sends the letter 'A', up to its first byte. -/
def clocksA : List Clock := List.replicate 5 (sendA false) ++ List.replicate 3 (sendA true)

theorem lawful_A : Lawful clocksA := ⟨by decide +kernel, by decide +kernel⟩

theorem program_sent_A : ∃ s : State (List Stmt), Reactive.run (step Receive.callStep)
      (powerUp ([Transmit.Call.writenUart (Firmware.ascii "A") 1].flatMap Transmit.Call.code))
      clocksA = some s ∧
    eventsAlong start clocksA = [.status 0x60, .act (.txdata 0x41)] ∧
    ∃ late, Sent s clocksA (eventsAlong start clocksA ++ Option.toList late) := by
  have hsome : (Reactive.run (step Receive.callStep)
      (powerUp ([Transmit.Call.writenUart (Firmware.ascii "A") 1].flatMap Transmit.Call.code))
      clocksA).isSome = true := by
    decide +kernel
  obtain ⟨s, hrun⟩ := Option.isSome_iff_exists.mp hsome
  obtain ⟨late, -, hsent⟩ := program_sent.1 _ clocksA s lawful_A hrun
  exact ⟨s, hrun, by decide +kernel, late, hsent⟩

/-! ## Receiving -/

/-- What some events have read and what the UART holds are the frames on the line in order, with
none missing exactly if the overrun flag is off. -/
def Heard (bs : List Firmware.Byte) (s : State σ) (es : List Event) : Prop :=
  let u := s.system.uart
  (Board.bytesRead es ++ UartRegs.held u ++
    (UartRx.pending u.line).map UartRegs.byteOf).Sublist bs ∧
  (u.flags.rxOverrun = false ↔
    Board.bytesRead es ++ UartRegs.held u ++ (UartRx.pending u.line).map UartRegs.byteOf = bs) ∧
  u.flags.framingError = false ∧ u.flags.breakDetect = false

theorem heard_run (hblind : Blind stp) (hstp : Board.Bodied Stmt.written stp todo) {p : σ}
    (hp : ∀ x ∈ todo p, x.written = true) {s : State σ} {cs : List Clock} (hlawful : Lawful cs)
    (hrun : Reactive.run (step stp) (powerUp p) cs = some s) {line : List Bool}
    {bs : List Firmware.Byte} {n : Nat}
    (hline : SerialLine.Sends (SerialLine.InStep (UartRx.period Uart.divisorConstant)
      (UartRx.centre Uart.divisorConstant)) line bs)
    (hrxd : cs.map Clock.rxd = List.replicate n false ++ true :: line) :
    ∃ late, (Reactive.run stp s.program (Option.toList late)).isSome = true ∧
      Heard bs s (eventsAlong start cs ++ Option.toList late) := by
  obtain ⟨ms, b, late, hboard, hclocks, hagree, hevents, hlate⟩ := board_run hblind hlawful hrun
  rw [← rxds_cycles start, ← hclocks] at hrxd
  have hheard := Board.heard_powerUp hstp hp hboard hline hrxd
  rw [Board.Heard, hevents] at hheard
  refine ⟨late, hlate, ?_⟩
  simp only [Heard, UartRegs.held, hagree.flags, hagree.line]
  exact hheard

/-- From the line over the bus to the program: every function body and `main` read the frames in
order, and lose one only if the overrun flag is on. -/
theorem program_read {cs : List Clock} (hlawful : Lawful cs) {line : List Bool}
    {bs : List Firmware.Byte} {n : Nat}
    (hline : SerialLine.Sends (SerialLine.InStep (UartRx.period Uart.divisorConstant)
      (UartRx.centre Uart.divisorConstant)) line bs)
    (hrxd : cs.map Clock.rxd = List.replicate n false ++ true :: line) :
    (∀ (body : List Stmt) s, (∀ x ∈ body, x.written = true) →
      Reactive.run (step Receive.callStep) (powerUp body) cs = some s →
      ∃ late, (Reactive.run Receive.callStep s.program (Option.toList late)).isSome = true ∧
        Heard bs s (eventsAlong start cs ++ Option.toList late)) ∧
    (∀ s, Reactive.run (step (Reactive.step Networked.main)) (powerUp Networked.boot) cs = some s →
      ∃ late, (Reactive.run (Reactive.step Networked.main) s.program
          (Option.toList late)).isSome = true ∧
        Heard bs s (eventsAlong start cs ++ Option.toList late)) :=
  ⟨fun _ _ hbody hrun => heard_run blind_call (Board.bodied_call _) hbody hlawful hrun hline hrxd,
    fun _ hrun => heard_run blind_main (Board.bodied_main Menu.loop_written) Menu.start_written
      hlawful hrun hline hrxd⟩

/-- A call of `readUart` while the line is at rest. -/
def clocksRest : List Clock := List.replicate 5 (sendA false)

theorem program_read_rest : ∃ s : State (List Stmt),
    Reactive.run (step Receive.callStep) (powerUp Networked.readUart) clocksRest = some s ∧
      eventsAlong start clocksRest = [.status 0x60] ∧
      ∃ late, Heard [] s (eventsAlong start clocksRest ++ Option.toList late) := by
  have hline : SerialLine.Sends (SerialLine.InStep (UartRx.period Uart.divisorConstant)
      (UartRx.centre Uart.divisorConstant)) [true, true, true, true] ([] : List Firmware.Byte) :=
    .idle (.idle (.idle (.idle .rest)))
  have hlawful : Lawful clocksRest := ⟨by decide +kernel, by decide +kernel⟩
  have hsome : (Reactive.run (step Receive.callStep) (powerUp Networked.readUart)
      clocksRest).isSome = true := by
    decide +kernel
  obtain ⟨s, hrun⟩ := Option.isSome_iff_exists.mp hsome
  obtain ⟨late, -, hheard⟩ := (program_read hlawful hline (n := 0) rfl).1 Networked.readUart s
    (by simp [Networked.readUart]) hrun
  exact ⟨s, hrun, by decide +kernel, late, hheard⟩

end Processor
