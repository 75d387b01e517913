import NiosMenu.OnePlace
import NiosMenu.UartRx

/-!
# The registers that a program sees

RXDATA holds one byte behind the receiver. What was read from it and what it still holds
is what arrived, unless the overrun flag is on; a byte that arrives in the very clock of a
read is lost as well, and sets the flag like one that overwrites another.
-/
namespace UartRegs

open Firmware SerialLine Uart UartTx UartRx

/-- The data bits of a received word. -/
def byteOf (r : BitVec 10) : Byte := r.extractLsb' 1 8

theorem byteOf_txLoadVal (b : Byte) : byteOf (txLoadVal b) = b := by
  apply BitVec.eq_of_getLsbD_eq
  intro i hi
  have hbit := getLsbD_txLoadVal b (i := i + 1) (by omega)
  have hdata : (frameBits b).getD (i + 1) true = b.getLsbD i := by
    simp [frameBits, List.getElem?_append, hi]
  rw [byteOf, BitVec.getLsbD_extractLsb', Nat.add_comm, hbit, hdata]
  simp [hi]

/-- The byte in RXDATA that has not been read. -/
def held (s : State) : List Byte := if s.flags.rxCharReady then [s.line.rxData] else []

/-- The bytes that go to RXDATA along a run, and those that the program reads. -/
def arrived (divisor : Divisor) (s : Slave) (is : List (Cycle × Bool)) : List Byte :=
  (arrivals divisor s.uart.line (is.map Prod.snd)).map byteOf

def taken (divisor : Divisor) : Slave → List (Cycle × Bool) → List Byte
  | _, [] => []
  | s, i :: is =>
    (if i.1.rxdata then [(s.step divisor i).uart.readdata.setWidth 8] else []) ++
      taken divisor (s.step divisor i) is

/-- A program that leaves the status register alone and reads RXDATA only when RRDY is set. -/
structure Guarded (divisor : Divisor) (s : Slave) (is : List (Cycle × Bool)) : Prop where
  keeps : ∀ i ∈ is, i.1.keeps = true
  ready : ∀ pre i post, is = pre ++ i :: post → i.1.rxdata = true →
    (s.run divisor pre).uart.flags.rxCharReady = true

variable {divisor : Divisor} {s : Slave} {i : Cycle × Bool} {is : List (Cycle × Bool)}

theorem Guarded.head (h : Guarded divisor s (i :: is)) :
    i.1.keeps = true ∧ (i.1.rxdata = true → s.uart.flags.rxCharReady = true) :=
  ⟨h.keeps i (by simp), h.ready [] i is rfl⟩

theorem Guarded.tail (h : Guarded divisor s (i :: is)) : Guarded divisor (s.step divisor i) is :=
  ⟨fun j hj => h.keeps j (by simp [hj]),
    fun pre j post hpre => h.ready (i :: pre) j post (by rw [hpre]; rfl)⟩

theorem guarded_nil (s : Slave) : Guarded divisor s [] :=
  ⟨fun i hi => (by cases hi), fun pre i post hpre => (by simp at hpre)⟩

theorem Guarded.cons (h : Guarded divisor (s.step divisor i) is) (hkeeps : i.1.keeps = true)
    (hready : i.1.rxdata = true → s.uart.flags.rxCharReady = true) :
    Guarded divisor s (i :: is) := by
  refine ⟨fun j hj => ?_, fun pre j post hpre hread => ?_⟩
  · obtain rfl | hj := List.mem_cons.mp hj
    · exact hkeeps
    · exact h.keeps j hj
  · cases pre with
    | nil =>
      obtain ⟨rfl, -⟩ := List.cons.inj hpre
      exact hready hread
    | cons k pre =>
      obtain ⟨rfl, hrest⟩ := List.cons.inj hpre
      exact h.ready pre j post hrest hread

theorem Guarded.snoc (h : Guarded divisor s is) (hkeeps : i.1.keeps = true)
    (hready : i.1.rxdata = true → (s.run divisor is).uart.flags.rxCharReady = true) :
    Guarded divisor s (is ++ [i]) := by
  refine ⟨fun j hj => ?_, fun pre j post hpre hread => ?_⟩
  · obtain hj | hj := List.mem_append.mp hj
    · exact h.keeps j hj
    · rwa [List.mem_singleton.mp hj]
  · obtain rfl | ⟨mid, k, rfl⟩ := List.eq_nil_or_concat' post
    · obtain ⟨rfl, hij⟩ := List.append_inj' hpre rfl
      obtain rfl : i = j := by simpa using hij
      exact hready hread
    · rw [← List.cons_append, ← List.append_assoc] at hpre
      exact h.ready pre j mid (List.append_inj' hpre rfl).1 hread

theorem guarded_idle (s : Slave) (h : ∀ i ∈ is, i.1 = .idle) : Guarded divisor s is := by
  refine ⟨fun i hi => by rw [h i hi]; rfl, fun pre i post hpre hread => ?_⟩
  rw [h i (by simp [hpre])] at hread
  cases hread

/-! ## The values read -/

theorem readdata_step (address : BitVec 3) (hread : i.1 = .first (.read address)) :
    (s.step divisor i).uart.readdata = s.uart.selectedReadData address := by
  simp [Slave.step, State.step, hread, Cycle.access, signals]

theorem readdata_rxdata (hread : i.1.rxdata = true) :
    (s.step divisor i).uart.readdata.setWidth 8 = s.uart.line.rxData := by
  obtain ⟨c, v⟩ := i
  match c with
  | .first (.read address) =>
    have haddress : address = 0 := by simpa [Cycle.rxdata] using hread
    rw [readdata_step address rfl, haddress, State.selectedReadData, if_pos rfl]
    simp

/-- Bits 6 and 7 of STATUS, as the program tests them. -/
theorem trdy_statusReg (s : State) : trdy (s.statusReg.setWidth 32) = s.tx.txReady := by
  rw [State.statusReg]
  generalize s.anyError = e, s.flags.rxCharReady = r, s.tx.txReady = t, s.tx.txShiftEmpty = m,
    s.tx.txOverrun = o, s.flags.rxOverrun = p, s.flags.breakDetect = b, s.flags.framingError = f
  revert e r t m o p b f
  decide

theorem rrdy_statusReg (s : State) : rrdy (s.statusReg.setWidth 32) = s.flags.rxCharReady := by
  rw [State.statusReg]
  generalize s.anyError = e, s.flags.rxCharReady = r, s.tx.txReady = t, s.tx.txShiftEmpty = m,
    s.tx.txOverrun = o, s.flags.rxOverrun = p, s.flags.breakDetect = b, s.flags.framingError = f
  revert e r t m o p b f
  decide

/-! ## The data register -/

theorem onset_rxdata (s : Slave) (i : Cycle × Bool) :
    ((signals i.1.begins (i.1.access s.last)).rxRdStrobe &&
      (signals i.1.begins (i.1.access s.last)).begintransfer) = i.1.rxdata := by
  obtain ⟨c, v⟩ := i
  cases c with
  | idle => rfl
  | first access =>
    cases access with
    | read address =>
      simp [signals, Bus.rxRdStrobe, Cycle.access, Cycle.begins, Cycle.rxdata]
    | write address data => rfl
  | again =>
    cases hlast : s.last with
    | none => rfl
    | some access => cases access <;> simp [signals, Cycle.access, Cycle.begins, Cycle.rxdata]

/-- No access to STATUS is a write. -/
def NoStatusWrite (s : Slave) : Prop := ∀ data, s.last ≠ some (.write 2 data)

theorem noStatusWrite_step (h : NoStatusWrite s) (hkeeps : i.1.keeps = true) :
    NoStatusWrite (s.step divisor i) := by
  intro data hl
  obtain hfirst | ⟨-, hbefore⟩ := last_step hl
  · rw [hfirst] at hkeeps
    simp [Cycle.keeps] at hkeeps
  · exact h data hbefore

theorem statusWrStrobe_step (h : NoStatusWrite s) (hkeeps : i.1.keeps = true) :
    (signals i.1.begins (i.1.access s.last)).statusWrStrobe = false := by
  have hnext := @noStatusWrite_step divisorConstant s i h hkeeps
  have hlast : (s.step divisorConstant i).last = i.1.access s.last := rfl
  match hacc : i.1.access s.last with
  | none => rfl
  | some (.read address) => rfl
  | some (.write address data) =>
    have haddress : address ≠ 2 := by
      rintro rfl
      exact hnext data (hlast.trans hacc)
    simpa [signals, Bus.statusWrStrobe] using haddress

theorem flags_step (hstatus : NoStatusWrite s) (hkeeps : i.1.keeps = true) :
    (s.step divisor i).uart.flags.rxCharReady =
      (!i.1.rxdata && (s.uart.line.gotNewChar || s.uart.flags.rxCharReady)) ∧
    (s.step divisor i).uart.flags.rxOverrun =
      (s.uart.line.gotNewChar && s.uart.flags.rxCharReady || s.uart.flags.rxOverrun) := by
  have honset := onset_rxdata s i
  have hstrobe := statusWrStrobe_step hstatus hkeeps
  simp only [Slave.step, State.step, RxFlags.step, honset, hstrobe]
  constructor
  · cases i.1.rxdata <;> cases s.uart.line.gotNewChar <;> simp
  · cases s.uart.line.gotNewChar <;> cases s.uart.flags.rxCharReady <;> simp

theorem rxData_step (s : Slave) (i : Cycle × Bool) : (s.step divisor i).uart.line.rxData =
    if s.uart.line.gotNewChar then byteOf s.uart.line.rxdShiftReg else s.uart.line.rxData := rfl

/-- The byte that goes to RXDATA at a clock. -/
def arriving (l : RxLine) : Option Byte :=
  if l.gotNewChar then some (byteOf l.rxdShiftReg) else none

/-- RXDATA with RRDY and the overrun flag. -/
def register (s : State) : OnePlace.Register Byte :=
  ⟨if s.flags.rxCharReady then some s.line.rxData else none, s.flags.rxOverrun⟩

theorem toList_register (s : State) : (register s).held.toList = held s := by
  cases hfull : s.flags.rxCharReady <;> simp [register, held, hfull]

theorem register_step (hstatus : NoStatusWrite s) (hkeeps : i.1.keeps = true) :
    register (s.step divisor i).uart =
      (register s.uart).next (i.1.rxdata, arriving s.uart.line) := by
  obtain ⟨hchar, hover⟩ := @flags_step divisor s i hstatus hkeeps
  have hdata := @rxData_step divisor s i
  cases hread : i.1.rxdata <;> cases hnew : s.uart.line.gotNewChar <;>
    cases hfull : s.uart.flags.rxCharReady <;>
    simp [register, OnePlace.Register.next, arriving, hchar, hover, hdata, hread, hnew, hfull]

/-- The reads of RXDATA and the arrivals, clock by clock. -/
def clocks (divisor : Divisor) : Slave → List (Cycle × Bool) → List (Bool × Option Byte)
  | _, [] => []
  | s, i :: is => (i.1.rxdata, arriving s.uart.line) :: clocks divisor (s.step divisor i) is

theorem register_run (hstatus : NoStatusWrite s) (hguarded : Guarded divisor s is) :
    register (s.run divisor is).uart = (register s.uart).run (clocks divisor s is) := by
  induction is generalizing s with
  | nil => rfl
  | cons i is ih =>
    have hkeeps := hguarded.head.1
    rw [Uart.run_cons, ih (noStatusWrite_step hstatus hkeeps) hguarded.tail, clocks,
      OnePlace.run_cons, register_step hstatus hkeeps]

theorem arrivals_clocks (s : Slave) (is : List (Cycle × Bool)) :
    OnePlace.arrivals (clocks divisor s is) = arrived divisor s is := by
  induction is generalizing s with
  | nil => rfl
  | cons i is ih =>
    have hfirst : (arriving s.uart.line).toList = (pending s.uart.line).map byteOf := by
      cases hnew : s.uart.line.gotNewChar <;> simp [arriving, pending, hnew]
    rw [clocks, OnePlace.arrivals_cons, ih, hfirst, arrived, arrived, List.map_cons,
      arrivals_cons, List.map_append]
    rfl

theorem taken_clocks (hstatus : NoStatusWrite s) (hguarded : Guarded divisor s is) :
    OnePlace.taken (register s.uart) (clocks divisor s is) = taken divisor s is := by
  induction is generalizing s with
  | nil => rfl
  | cons i is ih =>
    obtain ⟨hkeeps, hready⟩ := hguarded.head
    have hrest := ih (noStatusWrite_step hstatus hkeeps) hguarded.tail
    rw [clocks, OnePlace.taken, taken, ← register_step hstatus hkeeps, hrest]
    cases hread : i.1.rxdata with
    | false => rfl
    | true => rw [toList_register, held, if_pos (hready hread), readdata_rxdata hread]

theorem guarded_clocks (hstatus : NoStatusWrite s) (hguarded : Guarded divisor s is) :
    OnePlace.Guarded (register s.uart) (clocks divisor s is) := by
  induction is generalizing s with
  | nil => trivial
  | cons i is ih =>
    obtain ⟨hkeeps, hready⟩ := hguarded.head
    refine ⟨fun hread => by simp [register, hready hread], ?_⟩
    rw [← register_step hstatus hkeeps]
    exact ih (noStatusWrite_step hstatus hkeeps) hguarded.tail

/-- What is read and held are what was held at first and what has arrived since, as long as
the overrun flag, off at first, stays off. -/
theorem register_kept (hstatus : NoStatusWrite s) (hguarded : Guarded divisor s is)
    (hoff : s.uart.flags.rxOverrun = false) :
    OnePlace.Kept (register (s.run divisor is).uart) (held s.uart ++ arrived divisor s is)
      (taken divisor s is) := by
  have hheld := toList_register s.uart
  have hstart : OnePlace.Kept (register s.uart) (held s.uart) [] := by
    refine ⟨by rw [hheld]; exact List.Sublist.refl _, fun _ => hheld, fun hon => ?_⟩
    rw [register, hoff] at hon
    cases hon
  have hkept := OnePlace.run_kept hstart (guarded_clocks hstatus hguarded)
  rwa [← register_run hstatus hguarded, arrivals_clocks, taken_clocks hstatus hguarded,
    List.nil_append] at hkept

/-- What the program has read and what RXDATA holds are what arrived, in order; nothing is
missing exactly if the overrun flag is off. -/
theorem rxdata_law (hguarded : Guarded divisor start is) :
    (taken divisor start is ++ held (start.run divisor is).uart).Sublist
      (arrived divisor start is) ∧
    ((start.run divisor is).uart.flags.rxOverrun = false ↔
      taken divisor start is ++ held (start.run divisor is).uart = arrived divisor start is) := by
  have hkept := register_kept (fun data h => by cases h) hguarded rfl
  have hiff := hkept.overrun_iff
  have hsublist := hkept.sublist
  rw [toList_register] at hiff hsublist
  exact ⟨hsublist, hiff⟩

/-! ## From the line to the program -/

theorem line_run (s : Slave) (is : List (Cycle × Bool)) :
    (s.run divisor is).uart.line = listen divisor s.uart.line (is.map Prod.snd) := by
  induction is generalizing s with
  | nil => rfl
  | cons i is ih =>
    rw [Uart.run_cons, ih]
    rfl

/-- Words with a stop bit set neither the framing error nor the break flag. -/
theorem errors_run (hstatus : NoStatusWrite s) (hkeeps : ∀ i ∈ is, i.1.keeps = true)
    (hstop : ∀ r ∈ arrivals divisor s.uart.line (is.map Prod.snd), r.getLsbD 9 = true)
    (hclear : s.uart.flags.framingError = false ∧ s.uart.flags.breakDetect = false) :
    (s.run divisor is).uart.flags.framingError = false ∧
      (s.run divisor is).uart.flags.breakDetect = false := by
  induction is generalizing s with
  | nil => exact hclear
  | cons i is ih =>
    have hfirst := hkeeps i (by simp)
    have hstrobe := statusWrStrobe_step hstatus hfirst
    rw [List.map_cons, arrivals_cons] at hstop
    refine ih (noStatusWrite_step hstatus hfirst) (fun j hj => hkeeps j (by simp [hj]))
      (fun r hr => hstop r (List.mem_append_right _ hr)) ?_
    have hgood : s.uart.line.gotNewChar = true →
        s.uart.line.isFramingError = false ∧ s.uart.line.isBreak = false := by
      intro hnew
      have hbit := hstop s.uart.line.rxdShiftReg (by simp [pending, hnew])
      refine ⟨by simp [RxLine.isFramingError, RxLine.stopBit, hbit], ?_⟩
      apply beq_eq_false_iff_ne.mpr
      intro hzero
      rw [hzero] at hbit
      simp at hbit
    cases hnew : s.uart.line.gotNewChar with
    | false => simpa [Slave.step, State.step, RxFlags.step, hstrobe, hnew] using hclear
    | true =>
      obtain ⟨hframing, hbreak⟩ := hgood hnew
      simpa [Slave.step, State.step, RxFlags.step, hstrobe, hframing, hbreak] using hclear

section Line

variable {line : List Bool} {bs : List Byte} {n : Nat}

/-- What has arrived and what is just arriving are the bytes of the frames. -/
theorem line_arrived (hdiv : divisor ≠ 0)
    (hline : Sends (InStep (period divisor) (centre divisor)) line bs)
    (hrxd : is.map Prod.snd = List.replicate n false ++ true :: line) :
    arrived divisor start is ++ (pending (start.run divisor is).uart.line).map byteOf = bs := by
  have hwords := words_received hdiv hline n
  have hreset : start.uart.line = RxLine.reset := rfl
  rw [← hrxd, ← hreset, ← line_run] at hwords
  rw [arrived, ← List.map_append, hwords, List.map_map]
  have hid : byteOf ∘ txLoadVal = id := funext byteOf_txLoadVal
  rw [hid, List.map_id]

theorem line_order (hdiv : divisor ≠ 0)
    (hline : Sends (InStep (period divisor) (centre divisor)) line bs)
    (hrxd : is.map Prod.snd = List.replicate n false ++ true :: line)
    (hguarded : Guarded divisor start is) :
    (taken divisor start is ++ held (start.run divisor is).uart ++
      (pending (start.run divisor is).uart.line).map byteOf).Sublist bs := by
  rw [← line_arrived hdiv hline hrxd]
  exact (rxdata_law hguarded).1.append (List.Sublist.refl _)

theorem line_whole (hdiv : divisor ≠ 0)
    (hline : Sends (InStep (period divisor) (centre divisor)) line bs)
    (hrxd : is.map Prod.snd = List.replicate n false ++ true :: line)
    (hguarded : Guarded divisor start is) :
    (start.run divisor is).uart.flags.rxOverrun = false ↔
      taken divisor start is ++ held (start.run divisor is).uart ++
        (pending (start.run divisor is).uart.line).map byteOf = bs := by
  rw [← line_arrived hdiv hline hrxd, (rxdata_law hguarded).2, List.append_left_inj]

/-- Every frame ends with a stop bit, so the flags for frames without one stay off. -/
theorem line_flags (hdiv : divisor ≠ 0)
    (hline : Sends (InStep (period divisor) (centre divisor)) line bs)
    (hrxd : is.map Prod.snd = List.replicate n false ++ true :: line)
    (hguarded : Guarded divisor start is) :
    (start.run divisor is).uart.flags.framingError = false ∧
    (start.run divisor is).uart.flags.breakDetect = false := by
  have hwords := words_received hdiv hline n
  have hreset : start.uart.line = RxLine.reset := rfl
  rw [← hrxd, ← hreset, ← line_run] at hwords
  have hstop : ∀ r ∈ arrivals divisor start.uart.line (is.map Prod.snd), r.getLsbD 9 = true := by
    intro r hr
    have hmem := List.mem_append_left (pending (start.run divisor is).uart.line) hr
    rw [hwords] at hmem
    obtain ⟨b, -, rfl⟩ := List.mem_map.mp hmem
    rw [getLsbD_txLoadVal b (by omega)]
    simp [frameBits, List.range_succ]
  exact errors_run (fun data h => by cases h) hguarded.keeps hstop ⟨rfl, rfl⟩

end Line

/-- The whole way from the line to the program: frames in step with the baud counter are
read in order, none of them is missing exactly if the overrun flag is off, and the other
error flags stay off. -/
theorem line_read (hdiv : divisor ≠ 0) {line : List Bool} {bs : List Byte} {n : Nat}
    (hline : Sends (InStep (period divisor) (centre divisor)) line bs)
    (hrxd : is.map Prod.snd = List.replicate n false ++ true :: line)
    (hguarded : Guarded divisor start is) :
    (taken divisor start is ++ held (start.run divisor is).uart ++
      (pending (start.run divisor is).uart.line).map byteOf).Sublist bs ∧
    ((start.run divisor is).uart.flags.rxOverrun = false ↔
      taken divisor start is ++ held (start.run divisor is).uart ++
        (pending (start.run divisor is).uart.line).map byteOf = bs) ∧
    (start.run divisor is).uart.flags.framingError = false ∧
    (start.run divisor is).uart.flags.breakDetect = false :=
  ⟨line_order hdiv hline hrxd hguarded, line_whole hdiv hline hrxd hguarded,
    line_flags hdiv hline hrxd hguarded⟩

/-- The letter 'K' on a fast line, and a read behind it. -/
def lineK : List Bool := frameWave (List.replicate 10 5) 0x4B#8 ++ [true, true]

def readK : List (Cycle × Bool) :=
  (List.replicate 2 false ++ true :: lineK).map (fun v => (.idle, v)) ++ [(.first (.read 0), true)]

theorem guarded_readK : Guarded 4#9 start readK := by
  apply Guarded.snoc
  · exact guarded_idle _ fun i hi => by
      obtain ⟨v, -, rfl⟩ := List.mem_map.mp hi
      rfl
  · rfl
  · intro _
    decide +kernel

theorem line_read_K :
    (taken 4#9 start readK ++ held (start.run 4#9 readK).uart ++
      (pending (start.run 4#9 readK).uart.line).map byteOf).Sublist [0x4B#8] := by
  have hframe : Sends (InStep (period 4#9) (centre 4#9)) (lineK ++ [true]) [0x4B#8] := by
    rw [lineK, List.append_assoc]
    refine .frame rfl ?_ (.idle (.idle (.idle .rest)))
    exact inStep_of_near (T := 5) (m := 10) (δ := 0) (by simp) (by simp) (by decide) (by decide)
  exact (line_read (by decide) hframe (n := 2) (by simp [readK]) guarded_readK).1

end UartRegs
