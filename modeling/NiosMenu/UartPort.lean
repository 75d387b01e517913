import NiosMenu.Avalon
import NiosMenu.Uart

/-!
# The UART behind its port

An access lies on the lines of the UART for two clocks and begins in the first one. What
the processor reads is what the register holds in that clock, and the UART goes through the
states that the accesses lead to, one behind the other.
-/
namespace UartPort

open CommandMux Interconnect MasterPort SlavePort Avalon

/-! ## The lines -/

/-- read_n and write_n are inverted on the way; the UART has 16 lines for data. -/
def pins (g : Signals) : Uart.Bus where
  address := BitVec.ofNat 3 g.address
  begintransfer := g.begintransfer
  chipselect := g.chipselect
  readN := !g.read
  writeN := !g.write
  writedata := g.writedata.setWidth 16

/-- The UART does the same for two states of the lines. -/
structure Alike (b c : Uart.Bus) : Prop where
  chipselect : b.chipselect = c.chipselect
  begintransfer : b.begintransfer = c.begintransfer
  readN : b.readN = c.readN
  writeN : b.writeN = c.writeN
  address : c.chipselect = true → b.address = c.address
  writedata : c.chipselect = true → c.writeN = false → b.writedata = c.writedata

/-- Two states of the UART that differ in what it shows on its lines at most. -/
structure Agree (u v : Uart.State) : Prop where
  tx : u.tx = v.tx
  line : u.line = v.line
  flags : u.flags = v.flags
  txData : u.txData = v.txData
  controlReg : u.controlReg = v.controlReg

variable {u v : Uart.State} {b c : Uart.Bus}

theorem selectedReadData_agree (h : Agree u v) : u.selectedReadData = v.selectedReadData := by
  obtain ⟨tx, line, flags, txData, controlReg, readdata⟩ := u
  obtain ⟨rfl, rfl, rfl, rfl, rfl⟩ := h
  rfl

theorem strobes_alike (h : Alike b c) : b.rxRdStrobe = c.rxRdStrobe ∧
    b.txWrStrobe = c.txWrStrobe ∧ b.statusWrStrobe = c.statusWrStrobe ∧
    b.controlWrStrobe = c.controlWrStrobe := by
  rw [Uart.Bus.rxRdStrobe, Uart.Bus.txWrStrobe, Uart.Bus.statusWrStrobe, Uart.Bus.controlWrStrobe,
    h.chipselect, h.readN, h.writeN]
  cases hselect : c.chipselect with
  | false => simp [Uart.Bus.rxRdStrobe, Uart.Bus.txWrStrobe, Uart.Bus.statusWrStrobe,
      Uart.Bus.controlWrStrobe, hselect]
  | true => simp [Uart.Bus.rxRdStrobe, Uart.Bus.txWrStrobe, Uart.Bus.statusWrStrobe,
      Uart.Bus.controlWrStrobe, hselect, h.address hselect]

theorem written_alike {α : Type} (h : Alike b c) (here : Bool) (f : BitVec 16 → α) {d e : α}
    (hd : d = e) : (if c.chipselect && !c.writeN && here then f b.writedata else d) =
      if c.chipselect && !c.writeN && here then f c.writedata else e := by
  split
  · rename_i hstrobe
    obtain ⟨hselect, hwrite⟩ := Bool.and_eq_true_iff.mp (Bool.and_eq_true_iff.mp hstrobe).1
    rw [h.writedata hselect (by simpa using hwrite)]
  · exact hd

theorem agree_step (h : Agree u v) (hlines : Alike b c) (divisor : Uart.Divisor) (rxd : Bool) :
    Agree (u.step divisor b rxd) (v.step divisor c rxd) := by
  obtain ⟨hread, hwrite, hstatus, hcontrol⟩ := strobes_alike hlines
  refine ⟨?_, ?_, ?_, ?_, ?_⟩
  · simp only [Uart.State.step, Uart.State.txIn, h.tx, h.controlReg, h.txData, hwrite, hstatus,
      hlines.begintransfer]
  · simp only [Uart.State.step, h.line]
  · simp only [Uart.State.step, h.line, h.flags, hread, hstatus, hlines.begintransfer]
  · simp only [Uart.State.step, hwrite]
    exact written_alike hlines _ _ h.txData
  · simp only [Uart.State.step, hcontrol]
    exact written_alike hlines _ _ h.controlReg

/-! ## The translator at the UART -/

/-- The access that a command brings to the UART. -/
def asked (cp : Sink) : Uart.Access :=
  let a := BitVec.ofNat 3 ((address cp.beat).toNat / 4 % 2 ^ 3)
  if Interconnect.read cp.beat then .read a
  else .write a ((writedata cp.beat.data).setWidth 16)

/-- Between two accesses, and behind the first clock of one. -/
structure Fresh (t : Translator) : Prop where
  counter : t.waitLatencyCounter = 0
  begun : t.endBegintransfer = false

structure Midway (t : Translator) : Prop where
  counter : t.waitLatencyCounter = 1
  begun : t.endBegintransfer = true
  override : t.waitrequestResetOverride = false

variable {s : SlavePort.State} {o : Option Stored} {cp : Sink} {d : Device} {rpReady : Bool}

def lines (s : SlavePort.State) (cp : Sink) : Uart.Bus := pins (s.signals (timing .uart) cp)

theorem uavWaitrequest_uart (t : Translator) (uavWrite : Bool) :
    t.uavWaitrequest (timing .uart) uavWrite d =
      (t.waitLatencyCounter != 1 || t.waitrequestResetOverride) := by
  cases uavWrite <;> rfl

/-- A command for the UART reads or writes. -/
structure Clear (cp : Sink) : Prop where
  valid : cp.valid = true
  proper : Proper cp
  one : write cp.beat.data = !Interconnect.read cp.beat

theorem uavRead_clear (h : Answers s o) (hcp : Clear cp) :
    s.uavRead cp = Interconnect.read cp.beat := by
  rw [uavRead_eq h fun _ => hcp.proper, hcp.valid, Bool.true_and]

theorem uavWrite_clear (h : Answers s o) (hcp : Clear cp) :
    s.uavWrite cp = !Interconnect.read cp.beat := by
  rw [SlavePort.State.uavWrite, rfSourceReady_eq h, hcp.valid, hcp.one, Bool.true_and,
    Bool.true_and]

theorem access_clear (h : Answers s o) (hcp : Clear cp) :
    (s.uavRead cp || s.uavWrite cp) = true := by
  rw [uavRead_clear h hcp, uavWrite_clear h hcp, Bool.or_not_self]

/-- An access on the lines is that of the command. -/
theorem lines_clear (h : Answers s o) (hcp : Clear cp)
    (hsoon : s.translator.waitLatencyCounter ≤ 1) :
    Alike (lines s cp) (Uart.signals (!s.translator.endBegintransfer) (some (asked cp))) := by
  have hwrite : (s.signals (timing .uart) cp).write = !Interconnect.read cp.beat := by
    change (s.uavWrite cp && (false || !true || decide (s.translator.waitLatencyCounter ≤ 1))) = _
    rw [decide_eq_true hsoon, uavWrite_clear h hcp]
    simp
  have hbegin : (s.signals (timing .uart) cp).begintransfer = !s.translator.endBegintransfer := by
    change ((s.uavWrite cp || s.uavRead cp) && !s.translator.endBegintransfer) = _
    rw [Bool.or_comm, access_clear h hcp, Bool.true_and]
  have hselect : (s.signals (timing .uart) cp).chipselect = true := access_clear h hcp
  have hread : (s.signals (timing .uart) cp).read = Interconnect.read cp.beat :=
    uavRead_clear h hcp
  rw [asked]
  cases hkind : Interconnect.read cp.beat with
  | true =>
    rw [hkind] at hwrite hread
    refine ⟨hselect, hbegin, congrArg (!·) hread, congrArg (!·) hwrite, fun _ => rfl, ?_⟩
    intro _ hnever
    cases hnever
  | false =>
    rw [hkind] at hwrite hread
    exact ⟨hselect, hbegin, congrArg (!·) hread, congrArg (!·) hwrite, fun _ => rfl, fun _ _ => rfl⟩

/-- Nothing is on the lines without a command. -/
theorem lines_none (hnone : cp.valid = false) :
    Alike (lines s cp) (Uart.signals false none) ∧
    (s.uavRead cp || s.uavWrite cp) = false := by
  have hread : s.uavRead cp = false := by
    rw [SlavePort.State.uavRead, hnone]
    simp
  have hwrite : s.uavWrite cp = false := by
    rw [SlavePort.State.uavWrite, hnone]
    simp
  refine ⟨⟨?_, ?_, ?_, ?_, ?_, ?_⟩, by rw [hread, hwrite]; rfl⟩
  · simp [lines, pins, SlavePort.State.signals, hread, hwrite, Uart.signals]
  · simp [lines, pins, SlavePort.State.signals, hread, hwrite, Uart.signals,
      Translator.begintransfer]
  · simp [lines, pins, SlavePort.State.signals, hread, Uart.signals]
  · simp [lines, pins, SlavePort.State.signals, hwrite, Uart.signals]
  · intro hnever
    cases hnever
  · intro hnever
    cases hnever

/-- The translator behind a clock without an access. -/
theorem fresh_none (hfresh : Fresh s.translator) (hnone : cp.valid = false) :
    Fresh (s.step (timing .uart) cp d rpReady).translator := by
  obtain ⟨hread, hwrite⟩ := Bool.or_eq_false_iff.mp (lines_none (s := s) hnone).2
  constructor
  · simp [SlavePort.State.step, Translator.step, hread, hwrite]
  · simp [SlavePort.State.step, Translator.step, Translator.begintransfer, hread, hwrite,
      hfresh.begun]

/-- The first clock of an access: the UART does not take it yet. -/
theorem fresh_clear (h : Answers s o) (hfresh : Fresh s.translator)
    (hstarted : s.translator.waitrequestResetOverride = false) (hcp : Clear cp) :
    s.cpReady (timing .uart) cp d = false ∧
    Midway (s.step (timing .uart) cp d rpReady).translator := by
  have hwait : s.translator.uavWaitrequest (timing .uart) (s.uavWrite cp) d = true := by
    rw [uavWaitrequest_uart, hfresh.counter]
    rfl
  have haccess := access_clear h hcp
  refine ⟨?_, ?_, ?_, rfl⟩
  · rw [SlavePort.State.cpReady, SlavePort.State.uavWaitrequest, hwait]
    rfl
  · simp [SlavePort.State.step, Translator.step, hwait, hstarted, hfresh.counter, haccess]
  · simp [SlavePort.State.step, Translator.step, Translator.begintransfer, hwait, hstarted,
      hfresh.begun, Bool.or_comm (s.uavWrite cp), haccess]

/-- The second clock of an access: the UART takes it. -/
theorem midway_clear (h : Answers s o) (hmidway : Midway s.translator) (hcp : Clear cp) :
    s.takes (timing .uart) cp d = true ∧
    Fresh (s.step (timing .uart) cp d rpReady).translator := by
  have hwait : s.translator.uavWaitrequest (timing .uart) (s.uavWrite cp) d = false := by
    rw [uavWaitrequest_uart, hmidway.counter, hmidway.override]
    rfl
  refine ⟨?_, ?_, ?_⟩
  · rw [SlavePort.State.takes, hcp.valid, SlavePort.State.cpReady,
      SlavePort.State.uavWaitrequest, hwait, rfSourceReady_eq h]
    rfl
  · simp [SlavePort.State.step, Translator.step, hwait]
  · simp [SlavePort.State.step, Translator.step, Translator.begintransfer, hwait,
      hmidway.begun]

/-! ## The bus and the UART -/

structure System where
  bus : Avalon.State
  uart : Uart.State

def start : System := ⟨Avalon.reset, Uart.reset⟩

/-- What goes into the bus, with the lines that the UART drives. -/
def System.inputs (y : System) (x : Avalon.Inputs) : Avalon.Inputs where
  master := x.master
  device k := if k = .uart then ⟨false, y.uart.readdata.setWidth 32⟩ else x.device k

def System.lines (y : System) (x : Avalon.Inputs) : Uart.Bus :=
  UartPort.lines (y.bus.slave .uart) (y.bus.cp (y.inputs x) .uart)

/-- One clock, with the synchronized level of rxd. -/
def System.step (divisor : Uart.Divisor) (y : System) (x : Avalon.Inputs × Bool) : System :=
  ⟨y.bus.step (y.inputs x.1), y.uart.step divisor (y.lines x.1) x.2⟩

def System.run (divisor : Uart.Divisor) (y : System) (xs : List (Avalon.Inputs × Bool)) : System :=
  xs.foldl (System.step divisor) y

def inputsAlong (divisor : Uart.Divisor) (y : System) :
    List (Avalon.Inputs × Bool) → List Avalon.Inputs
  | [] => []
  | x :: xs => y.inputs x.1 :: inputsAlong divisor (y.step divisor x) xs

/-- What the UART sees of a clock. -/
def seen (b : Uart.Bus) : Uart.Cycle :=
  if !b.chipselect then .idle
  else if b.begintransfer then
    .first (if !b.readN then .read b.address else .write b.address b.writedata)
  else .again

def System.cycle (y : System) (x : Avalon.Inputs) : Uart.Cycle := seen (y.lines x)

def cyclesAlong (divisor : Uart.Divisor) (y : System) :
    List (Avalon.Inputs × Bool) → List (Uart.Cycle × Bool)
  | [] => []
  | x :: xs => (y.cycle x.1, x.2) :: cyclesAlong divisor (y.step divisor x) xs

/-- Every access takes two clocks; the flag is on inside of one. -/
def Twice : Bool → List Uart.Cycle → Prop
  | _, [] => True
  | false, .idle :: cs => Twice false cs
  | false, .first _ :: cs => Twice true cs
  | true, .again :: cs => Twice false cs
  | _, _ :: _ => False

/-- An access with what has been read. -/
abbrev Outcome := Uart.Access × Option (BitVec 32)

/-- The accesses that begin along some clocks; a read gives what the register holds then. -/
def begun (u : Uart.State) : Uart.Cycle → List Outcome
  | .first (.read a) => [(.read a, some ((u.selectedReadData a).setWidth 32))]
  | .first (.write a d) => [(.write a d, none)]
  | _ => []

def begunAlong (divisor : Uart.Divisor) (v : Uart.Slave) : List (Uart.Cycle × Bool) → List Outcome
  | [] => []
  | c :: cs => begun v.uart c.1 ++ begunAlong divisor (v.step divisor c) cs

/-- A transfer at the port, as the UART gets it. -/
def outcome (t : Transfer) : Outcome :=
  match t.access with
  | .read a d => (.read (BitVec.ofNat 3 a), some d)
  | .write a _ d => (.write (BitVec.ofNat 3 a) (d.setWidth 16), none)

/-! ## One clock -/

theorem seen_none (h : Alike b (Uart.signals false none)) : seen b = .idle := by
  rw [seen, h.chipselect]
  rfl

theorem seen_some {begins : Bool} {a : Uart.Access}
    (h : Alike b (Uart.signals begins (some a))) :
    seen b = if begins then .first a else .again := by
  cases a with
  | read address =>
    rw [seen, h.chipselect, h.begintransfer, h.readN, h.address rfl]
    rfl
  | write address data =>
    rw [seen, h.chipselect, h.begintransfer, h.readN, h.address rfl, h.writedata rfl rfl]
    rfl

theorem clear_cp {s : Avalon.State} {x : Avalon.Inputs} {w : Slave → Option (Fin 2 × Stored)}
    (h : Inv s w) (hfits : Fits s x) {k : Slave} (hvalid : (s.cp x k).valid = true) :
    Clear (s.cp x k) := by
  refine ⟨hvalid, proper_cp h.sound k hvalid, ?_⟩
  obtain ⟨i, hi, -, hcp, -⟩ | ⟨hnone, -⟩ := cp_serves (x := x) h.sound k
  · have hidle := valid_idle hfits hi
    have hoffers := (Bool.and_eq_true_iff.mp hi).1
    rw [uavRead_idle hidle] at hoffers
    rw [hcp, write_stamped, read_stamped, uavRead_idle hidle]
    cases hread : (x.master i).read with
    | false =>
      rw [hread, Bool.or_false] at hoffers
      exact hoffers
    | true =>
      rw [MasterPort.State.uavWrite, writePre_read (hfits.proper i) hread]
      rfl
  · rw [hnone] at hvalid
    cases hvalid

/-- What an access under way gives, when the UART takes it. -/
def got (u : Uart.State) (cp : Sink) : Outcome :=
  (asked cp, if Interconnect.read cp.beat then some (u.readdata.setWidth 32) else none)

/-- Where the port of the UART is in an access. -/
inductive Phase (y : System) (last : Option Uart.Access) (next : Option Avalon.Inputs) :
    Bool → List Outcome → Prop
  | fresh : Fresh (y.bus.slave .uart).translator → Phase y last next false []
  | midway (cp : Sink) : Midway (y.bus.slave .uart).translator → Clear cp →
      (∀ x ∈ next, y.bus.cp (y.inputs x) .uart = cp) → last = some (asked cp) →
      Phase y last next true [got y.uart cp]

section Clock

variable {y : System} {x : Avalon.Inputs} {w : Slave → Option (Fin 2 × Stored)} {v : Uart.Slave}
  {divisor : Uart.Divisor} {rxd : Bool}

theorem begun_asked (divisor : Uart.Divisor) (rxd : Bool) (h : Agree y.uart v.uart)
    (hlines : Alike (y.lines x) (Uart.signals true (some (asked cp)))) :
    begun v.uart (.first (asked cp)) = [got (y.step divisor (x, rxd)).uart cp] := by
  have hshown : (y.step divisor (x, rxd)).uart.readdata =
      v.uart.selectedReadData (y.lines x).address := by
    rw [← selectedReadData_agree h]
    rfl
  rw [got, hshown]
  rw [asked] at hlines ⊢
  cases hread : Interconnect.read cp.beat with
  | true =>
    rw [hread, if_pos rfl] at hlines
    rw [hlines.address rfl]
    rfl
  | false => rfl

theorem served_midway (h : Inv y.bus w) (next : Option Avalon.Inputs) (hcp : Clear cp)
    (hsame : y.bus.cp (y.inputs x) .uart = cp)
    (htakes : y.bus.takes (y.inputs x) .uart = true) :
    (y.bus.served (y.inputs x) next .uart).map outcome = [got y.uart cp] := by
  have hends : (y.bus.slave .uart).ends (timing .uart) (y.bus.cp (y.inputs x) .uart)
      ((y.inputs x).device .uart) = true :=
    (ends_eq (h.answers _) (proper_cp h.sound _)).trans htakes
  rw [State.served, if_pos hends, hsame, uavRead_clear (h.answers .uart) hcp, got, asked]
  cases Interconnect.read cp.beat <;> rfl

theorem served_waiting (h : Inv y.bus w) (next : Option Avalon.Inputs)
    (htakes : y.bus.takes (y.inputs x) .uart = false) :
    y.bus.served (y.inputs x) next .uart = [] := by
  have hends : (y.bus.slave .uart).ends (timing .uart) (y.bus.cp (y.inputs x) .uart)
      ((y.inputs x).device .uart) = false :=
    (ends_eq (h.answers _) (proper_cp h.sound _)).trans htakes
  rw [State.served, hends]
  rfl

/-- The first clock of an access. -/
theorem lines_fresh (h : Inv y.bus w) (hfits : Fits y.bus (y.inputs x))
    (hfresh : Fresh (y.bus.slave .uart).translator)
    (hvalid : (y.bus.cp (y.inputs x) .uart).valid = true) :
    Alike (y.lines x) (Uart.signals true (some (asked (y.bus.cp (y.inputs x) .uart)))) := by
  have hlines := lines_clear (h.answers .uart) (clear_cp h hfits hvalid)
    (by rw [hfresh.counter]; decide)
  rwa [hfresh.begun] at hlines

/-- The second clock of an access. -/
theorem lines_midway (h : Inv y.bus w) (hmidway : Midway (y.bus.slave .uart).translator)
    (hcp : Clear (y.bus.cp (y.inputs x) .uart)) :
    Alike (y.lines x) (Uart.signals false (some (asked (y.bus.cp (y.inputs x) .uart)))) := by
  have hlines : Alike (y.lines x) _ :=
    lines_clear (h.answers .uart) hcp (by rw [hmidway.counter]; decide)
  rwa [hmidway.begun] at hlines

/-- What the UART sees in a clock: nothing, or one of the two clocks of an access. -/
theorem phase_cycle (h : Inv y.bus w) (hfits : Fits y.bus (y.inputs x)) {last : Option Uart.Access}
    {mid : Bool} {late : List Outcome} (hphase : Phase y last (some x) mid late) :
    ((y.bus.cp (y.inputs x) .uart).valid = false ∧ late = [] ∧ y.cycle x = .idle) ∨
    ((y.bus.cp (y.inputs x) .uart).valid = true ∧ late = [] ∧
      y.cycle x = .first (asked (y.bus.cp (y.inputs x) .uart))) ∨
    ((y.bus.cp (y.inputs x) .uart).valid = true ∧ late ≠ [] ∧ y.cycle x = .again) := by
  cases hphase with
  | fresh hfresh =>
    cases hvalid : (y.bus.cp (y.inputs x) .uart).valid with
    | false => exact .inl ⟨rfl, rfl, seen_none (lines_none hvalid).1⟩
    | true => exact .inr (.inl ⟨rfl, rfl, seen_some (lines_fresh h hfits hfresh hvalid)⟩)
  | midway cp hmidway hcp hsame hlast =>
    have hnow : Clear (y.bus.cp (y.inputs x) .uart) := (hsame x rfl).symm ▸ hcp
    have hagain : y.cycle x = .again := seen_some (lines_midway h hmidway hnow)
    exact .inr (.inr ⟨hnow.valid, List.cons_ne_nil _ _, hagain⟩)

/-- One clock of bus and UART is one clock of the UART under the cycle that it sees. -/
theorem phase_step (h : Inv y.bus w) (hfits : Fits y.bus (y.inputs x))
    (hagree : Agree y.uart v.uart) {mid : Bool} {late : List Outcome}
    (hphase : Phase y v.last (some x) mid late) (next : Option Avalon.Inputs)
    (hholds : ∀ z ∈ next, y.bus.holds (y.inputs x) ((y.step divisor (x, rxd)).inputs z))
    (there : Option Avalon.Inputs) : ∃ mid' late',
      Phase (y.step divisor (x, rxd)) (v.step divisor (y.cycle x, rxd)).last next mid' late' ∧
      Agree (y.step divisor (x, rxd)).uart (v.step divisor (y.cycle x, rxd)).uart ∧
      late ++ begun v.uart (y.cycle x) =
        (y.bus.served (y.inputs x) there .uart).map outcome ++ late' ∧
      ∀ cs, Twice mid' cs → Twice mid (y.cycle x :: cs) := by
  cases hphase with
  | fresh hfresh =>
    cases hvalid : (y.bus.cp (y.inputs x) .uart).valid with
    | false =>
      -- no command for the UART
      have hlines : Alike (y.lines x) (Uart.signals false none) := (lines_none hvalid).1
      have hcycle : y.cycle x = .idle := seen_none hlines
      have htakes : y.bus.takes (y.inputs x) .uart = false :=
        Bool.and_eq_false_iff.mpr (.inl hvalid)
      rw [hcycle, served_waiting h there htakes]
      exact ⟨false, [], .fresh (fresh_none hfresh hvalid), agree_step hagree hlines divisor rxd,
        rfl, fun _ hcs => hcs⟩
    | true =>
      -- the first clock of an access; the bus offers the command again in the next one
      have hcp := clear_cp h hfits hvalid
      have hstarted : (y.bus.slave .uart).translator.waitrequestResetOverride = false := by
        by_contra hoverride
        rw [cp_start h (by simpa using hoverride)] at hvalid
        cases hvalid
      obtain ⟨hwait, hmidway⟩ := @fresh_clear _ _ _ ((y.inputs x).device .uart)
        (y.bus.rpReady (y.inputs x) .uart) (h.answers .uart) hfresh hstarted hcp
      have hlines := lines_fresh h hfits hfresh hvalid
      have hcycle : y.cycle x = .first (asked _) := seen_some hlines
      have htakes : y.bus.takes (y.inputs x) .uart = false :=
        Bool.and_eq_false_iff.mpr (.inr hwait)
      rw [hcycle, served_waiting h there htakes, begun_asked divisor rxd hagree
        hlines]
      refine ⟨true, _, .midway _ hmidway hcp (fun z hz => ?_) rfl,
        agree_step hagree hlines divisor rxd, rfl, fun _ hcs => hcs⟩
      exact cp_kept h hfits (hholds z hz) hvalid hwait
  | midway cp hmidway hcp hsame hlast =>
    -- the second clock, in which the UART takes the command
    have hsame := hsame x rfl
    have hnow : Clear (y.bus.cp (y.inputs x) .uart) := by rw [hsame]; exact hcp
    obtain ⟨htakes, hfresh⟩ := @midway_clear _ _ _ ((y.inputs x).device .uart)
      (y.bus.rpReady (y.inputs x) .uart) (h.answers .uart) hmidway hnow
    have hlines := lines_midway h hmidway hnow
    have hcycle : y.cycle x = .again := seen_some hlines
    rw [hsame, ← hlast] at hlines
    rw [hcycle, served_midway h there hcp hsame htakes]
    exact ⟨false, [], .fresh hfresh, agree_step hagree hlines divisor rxd, rfl, fun _ hcs => hcs⟩

end Clock

/-! ## Runs -/

theorem served_slave (s : Avalon.State) (x : Avalon.Inputs) (next : Option Avalon.Inputs) :
    (slaves.flatMap (s.served x next)).filter (fun t => t.slave = .uart) =
      s.served x next .uart := by
  have hat : ∀ k, (s.served x next k).filter (fun t => t.slave = .uart) =
      if k = .uart then s.served x next k else [] := by
    intro k
    rw [State.served]
    split
    · by_cases hk : k = .uart <;> simp [hk]
    · simp
  rw [List.filter_flatMap]
  simp only [hat]
  simp [slaves]

/-- The levels of txd after each of some clocks. -/
def levelsAlong (divisor : Uart.Divisor) (y : System) : List (Avalon.Inputs × Bool) → List Bool
  | [] => []
  | x :: xs => (y.step divisor x).uart.tx.txd :: levelsAlong divisor (y.step divisor x) xs

theorem mem_inputsAlong (divisor : Uart.Divisor) (y : System) {xs : List (Avalon.Inputs × Bool)}
    {x : Avalon.Inputs × Bool} (hx : x ∈ xs.head?) :
    y.inputs x.1 ∈ (inputsAlong divisor y xs).head? := by
  cases xs with
  | nil => cases hx
  | cons z xs =>
    obtain rfl : z = x := Option.some.inj hx
    rfl

theorem phase_run (divisor : Uart.Divisor) (xs : List (Avalon.Inputs × Bool)) {y : System}
    {w : Slave → Option (Fin 2 × Stored)} {v : Uart.Slave} {mid : Bool} {late : List Outcome}
    (h : Inv y.bus w) (hfits : ∀ x ∈ xs.head?, Fits y.bus (y.inputs x.1))
    (hholds : holdsAlong y.bus (inputsAlong divisor y xs)) (hagree : Agree y.uart v.uart)
    (hphase : Phase y v.last (xs.head?.map Prod.fst) mid late) :
    Twice mid ((cyclesAlong divisor y xs).map Prod.fst) ∧
    Agree (y.run divisor xs).uart (v.run divisor (cyclesAlong divisor y xs)).uart ∧
    levelsAlong divisor y xs = Uart.txds divisor v (cyclesAlong divisor y xs) ∧
    ∃ rest, rest.length ≤ 1 ∧ late ++ begunAlong divisor v (cyclesAlong divisor y xs) =
      ((servedAlong y.bus (inputsAlong divisor y xs)).filter
        fun t => t.slave = .uart).map outcome ++ rest := by
  induction xs generalizing y w v mid late with
  | nil =>
    refine ⟨by cases mid <;> trivial, hagree, rfl, late, ?_, by simp [begunAlong, cyclesAlong,
      servedAlong, inputsAlong]⟩
    cases hphase <;> simp
  | cons x xs ih =>
    obtain ⟨x, rxd⟩ := x
    have hfit : Fits y.bus (y.inputs x) := hfits _ rfl
    obtain ⟨-, hkept, hrest⟩ := hholds
    have hnext : ∀ z ∈ xs.head?, y.bus.holds (y.inputs x) ((y.step divisor (x, rxd)).inputs z.1) :=
      fun z hz => hkept _ (mem_inputsAlong divisor _ hz)
    obtain ⟨mid', late', hphase', hagree', hbalance, htwice⟩ := @phase_step _ _ _ _ divisor rxd h
      hfit hagree _ _ hphase (xs.head?.map Prod.fst)
      (fun z hz => by
        obtain ⟨a, ha, rfl⟩ := Option.map_eq_some_iff.mp hz
        exact hnext a ha)
      (inputsAlong divisor (y.step divisor (x, rxd)) xs).head?
    obtain ⟨htwiceRun, hagreeRun, hlevels, rest, hone, hrun⟩ := ih (inv_step h hfit)
      (fun z hz => fits_step h hfit (proper_head hrest _ (mem_inputsAlong divisor _ hz))
        (hnext z hz)) hrest hagree' hphase'
    refine ⟨htwice _ htwiceRun, hagreeRun, ?_, rest, hone, ?_⟩
    · rw [levelsAlong, hlevels, hagree'.tx]
      rfl
    rw [cyclesAlong, begunAlong, inputsAlong, servedAlong, List.filter_append, served_slave,
      List.map_append, ← List.append_assoc, hbalance, List.append_assoc, hrun, List.append_assoc]
    rfl

theorem fits_start (divisor : Uart.Divisor) {xs : List (Avalon.Inputs × Bool)}
    (hholds : holdsAlong Avalon.reset (inputsAlong divisor start xs)) :
    ∀ x ∈ xs.head?, Fits Avalon.reset (start.inputs x.1) :=
  fun _ hx => fits_reset (proper_head hholds _ (mem_inputsAlong divisor start hx))

theorem agree_start : Agree start.uart Uart.start.uart := ⟨rfl, rfl, rfl, rfl, rfl⟩

theorem phase_start (next : Option Avalon.Inputs) :
    Phase start Uart.start.last next false [] :=
  .fresh ⟨rfl, rfl⟩

/-- Whatever else is going on on the bus: the accesses to the UART lie on its lines one behind
the other, each for two clocks, the UART goes through the states that they lead to, and what
ends at its port is what has begun there, where a read gives what the register held in its
first clock. -/
theorem accesses_begun (divisor : Uart.Divisor) {xs : List (Avalon.Inputs × Bool)}
    (hholds : holdsAlong Avalon.reset (inputsAlong divisor start xs)) :
    Twice false ((cyclesAlong divisor start xs).map Prod.fst) ∧
    Agree (start.run divisor xs).uart
      (Uart.start.run divisor (cyclesAlong divisor start xs)).uart ∧
    levelsAlong divisor start xs = Uart.txds divisor Uart.start (cyclesAlong divisor start xs) ∧
    ∃ late, late.length ≤ 1 ∧ begunAlong divisor Uart.start (cyclesAlong divisor start xs) =
      ((servedAlong Avalon.reset (inputsAlong divisor start xs)).filter
        fun t => t.slave = .uart).map outcome ++ late :=
  phase_run divisor xs inv_reset (fits_start divisor hholds) hholds agree_start (phase_start _)

/-- The processor sends a byte, and reads the status then. -/
def sending (writes : Bool) : Avalon.Inputs × Bool where
  fst :=
    { master := fun i =>
        if i = dataMaster then
          if writes then ⟨false, true, 0x11024, 15, 0x41, false⟩
          else ⟨true, false, 0x11028, 15, 0, false⟩
        else ⟨false, false, 0, 0, 0, false⟩
      device := fun _ => ⟨false, 0⟩ }
  snd := true

def byteAndStatus : List (Avalon.Inputs × Bool) :=
  List.replicate 4 (sending true) ++ List.replicate 3 (sending false)

theorem accesses_begun_status :
    (cyclesAlong Uart.divisorConstant start byteAndStatus).map Prod.fst =
      [.idle, .idle, .first (.write 1 0x41), .again, .first (.read 2), .again, .idle] ∧
    ∃ late, late.length ≤ 1 ∧
      begunAlong Uart.divisorConstant Uart.start
        (cyclesAlong Uart.divisorConstant start byteAndStatus) =
      ((servedAlong Avalon.reset (inputsAlong Uart.divisorConstant start byteAndStatus)).filter
        fun t => t.slave = .uart).map outcome ++ late :=
  ⟨by decide +kernel, (accesses_begun Uart.divisorConstant (by decide +kernel)).2.2.2⟩

/-- When only the data master goes to the UART, what ends there is what the processor does at
its addresses. -/
theorem served_processor {xs : List Avalon.Inputs} (hholds : holdsAlong Avalon.reset xs)
    (halone : ∀ t ∈ servedAlong Avalon.reset xs, t.slave = .uart → t.master = dataMaster) :
    ∃ late, late.length ≤ 1 ∧ (servedAlong Avalon.reset xs).filter (fun t => t.slave = .uart) =
      ((completedAlong dataMaster Avalon.reset xs).map (carried dataMaster)).filter
        (fun t => t.slave = .uart) ++ late := by
  obtain ⟨ends, hends, hserved⟩ := owes_run (i := dataMaster) _ inv_reset
    (fun x hx => fits_reset (proper_head hholds x hx)) hholds (owes_nothing _ rfl)
  rw [List.nil_append] at hserved
  refine ⟨ends.filter fun t => t.slave = .uart, (List.length_filter_le _ _).trans hends, ?_⟩
  rw [← List.filter_append, ← hserved, List.filter_filter]
  refine List.filter_congr fun t ht => ?_
  by_cases huart : t.slave = .uart
  · simp [huart, halone t ht huart]
  · simp [huart]

/-- When only the data master goes to the UART, what begins there is what the processor does at
its addresses, in order, but for what is still on its way. -/
theorem processor_accesses (divisor : Uart.Divisor) {xs : List (Avalon.Inputs × Bool)}
    (hholds : holdsAlong Avalon.reset (inputsAlong divisor start xs))
    (halone : ∀ t ∈ servedAlong Avalon.reset (inputsAlong divisor start xs),
      t.slave = .uart → t.master = dataMaster) :
    ∃ late, late.length ≤ 2 ∧ begunAlong divisor Uart.start (cyclesAlong divisor start xs) =
      (((completedAlong dataMaster Avalon.reset (inputsAlong divisor start xs)).map
        (carried dataMaster)).filter fun t => t.slave = .uart).map outcome ++ late := by
  obtain ⟨-, -, -, begins, hbegins, hbegun⟩ := phase_run divisor xs inv_reset
    (fits_start divisor hholds) hholds agree_start (phase_start _)
  obtain ⟨ends, hends, hserved⟩ := served_processor hholds halone
  refine ⟨ends.map outcome ++ begins, ?_, ?_⟩
  · rw [List.length_append, List.length_map]
    omega
  · rw [List.nil_append] at hbegun
    have hreset : start.bus = Avalon.reset := rfl
    rw [hbegun, hreset, hserved, List.map_append, List.append_assoc]

theorem processor_accesses_status :
    completedAlong dataMaster Avalon.reset
        (inputsAlong Uart.divisorConstant start byteAndStatus) =
      [.write 0x11024 15 0x41, .read 0x11028 0] ∧
    ∃ late, late.length ≤ 2 ∧
      begunAlong Uart.divisorConstant Uart.start
        (cyclesAlong Uart.divisorConstant start byteAndStatus) =
      (((completedAlong dataMaster Avalon.reset
        (inputsAlong Uart.divisorConstant start byteAndStatus)).map
          (carried dataMaster)).filter fun t => t.slave = .uart).map outcome ++ late :=
  ⟨by decide +kernel, processor_accesses Uart.divisorConstant (by decide +kernel)
    (by decide +kernel)⟩

end UartPort
