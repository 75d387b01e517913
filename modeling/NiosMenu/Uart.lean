import NiosMenu.Firmware

/-!
# The UART, clock by clock

The registers of `nios_uart_0`: the transmitter, the receiver behind its synchronizer
and the register bank. Every always block of the source is one field of a step; clk_en
is tied to one there and left out here.
-/
namespace Uart

open Firmware

/-- Divisors of the bit time are nine bits wide. -/
abbrev Divisor := BitVec 9

/-- The synthesized value of divisor_constant. -/
def divisorConstant : Divisor := 434#9

/-! ## nios_uart_0_tx -/

structure Tx where
  baudClkEn : Bool
  baudRateCounter : Divisor
  doLoadShifter : Bool
  preTxd : Bool
  txOverrun : Bool
  txReady : Bool
  txShiftEmpty : Bool
  txd : Bool
  txShiftRegister : BitVec 10
  deriving DecidableEq, Repr

structure TxIn where
  begintransfer : Bool
  doForceBreak : Bool
  statusWrStrobe : Bool
  txData : Byte
  txWrStrobe : Bool

def Tx.reset : Tx where
  baudClkEn := false
  baudRateCounter := 0
  doLoadShifter := false
  preTxd := true
  txOverrun := false
  txReady := true
  txShiftEmpty := true
  txd := true
  txShiftRegister := 0

def TxIn.txWrStrobeOnset (i : TxIn) : Bool := i.txWrStrobe && i.begintransfer

/-- The stop bit, the data and the start bit. -/
def txLoadVal (txData : Byte) : BitVec 10 := 1#1 ++ txData ++ 0#1

def Tx.shiftDone (s : Tx) : Bool := s.txShiftRegister == 0

def Tx.doShift (s : Tx) : Bool := s.baudClkEn && !s.shiftDone && !s.doLoadShifter

def Tx.step (divisor : Divisor) (s : Tx) (i : TxIn) : Tx where
  doLoadShifter := !s.txReady && s.shiftDone
  txReady :=
    if i.txWrStrobeOnset then false
    else if s.doLoadShifter then true
    else s.txReady
  txOverrun :=
    if i.statusWrStrobe then false
    else if !s.txReady && i.txWrStrobeOnset then true
    else s.txOverrun
  txShiftEmpty := s.txReady && s.shiftDone
  baudRateCounter :=
    if s.baudRateCounter == 0 || s.doLoadShifter then divisor else s.baudRateCounter - 1
  baudClkEn := s.baudRateCounter == 0
  preTxd := if s.shiftDone then s.preTxd else s.txShiftRegister.getLsbD 0
  txd := s.preTxd && !i.doForceBreak
  txShiftRegister :=
    if s.doLoadShifter then txLoadVal i.txData
    else if s.doShift then s.txShiftRegister >>> 1
    else s.txShiftRegister

/-! ## nios_uart_0_rx -/

/-- The registers on the side of the line. -/
structure RxLine where
  baudClkEn : Bool
  baudRateCounter : Divisor
  delayedSyncRxd1 : Bool
  delayedSyncRxd2 : Bool
  doStartRx : Bool
  rxdShiftReg : BitVec 10
  delayedRxInProcess : Bool
  rxData : Byte
  deriving DecidableEq, Repr

/-- The flags on the side of the bus. -/
structure RxFlags where
  breakDetect : Bool
  framingError : Bool
  rxCharReady : Bool
  rxOverrun : Bool
  deriving DecidableEq, Repr

def RxLine.reset : RxLine where
  baudClkEn := false
  baudRateCounter := 0
  delayedSyncRxd1 := false
  delayedSyncRxd2 := false
  doStartRx := false
  rxdShiftReg := 0
  delayedRxInProcess := false
  rxData := 0

def RxFlags.reset : RxFlags := ⟨false, false, false, false⟩

def RxLine.rxInProcess (s : RxLine) : Bool := s.rxdShiftReg.getLsbD 0
def RxLine.rawDataIn (s : RxLine) : Byte := s.rxdShiftReg.extractLsb' 1 8
def RxLine.stopBit (s : RxLine) : Bool := s.rxdShiftReg.getLsbD 9
def RxLine.isBreak (s : RxLine) : Bool := s.rxdShiftReg == 0
def RxLine.isFramingError (s : RxLine) : Bool := !s.stopBit && !s.isBreak
def RxLine.gotNewChar (s : RxLine) : Bool := !s.rxInProcess && s.delayedRxInProcess
def RxLine.sampleEnable (s : RxLine) : Bool := s.baudClkEn && s.rxInProcess
def RxLine.rxdFalling (s : RxLine) (syncRxd : Bool) : Bool := !syncRxd && s.delayedSyncRxd1
def RxLine.rxdEdge (s : RxLine) (syncRxd : Bool) : Bool := syncRxd ^^ s.delayedSyncRxd2

def halfBitCellDivisor (divisor : Divisor) : BitVec 8 := divisor.extractLsb' 1 8

/-- The newest bit enters at the top. -/
def shiftIn (r : BitVec 10) (v : Bool) : BitVec 10 := BitVec.ofBool v ++ r.extractLsb' 1 9

def RxLine.step (divisor : Divisor) (s : RxLine) (syncRxd : Bool) : RxLine where
  delayedSyncRxd1 := syncRxd
  delayedSyncRxd2 := syncRxd
  baudRateCounter :=
    if s.baudRateCounter == 0 || s.rxdEdge syncRxd then
      if s.rxdEdge syncRxd then (halfBitCellDivisor divisor).setWidth 9 else divisor
    else s.baudRateCounter - 1
  baudClkEn := if s.rxdEdge syncRxd then false else s.baudRateCounter == 0
  doStartRx := !s.rxInProcess && s.rxdFalling syncRxd
  delayedRxInProcess := s.rxInProcess
  rxData := if s.gotNewChar then s.rawDataIn else s.rxData
  rxdShiftReg :=
    if s.doStartRx then BitVec.allOnes 10
    else if s.sampleEnable then shiftIn s.rxdShiftReg syncRxd
    else s.rxdShiftReg

def RxFlags.step (f : RxFlags) (s : RxLine) (rxRdStrobeOnset statusWrStrobe : Bool) : RxFlags where
  framingError :=
    if statusWrStrobe then false
    else if s.gotNewChar && s.isFramingError then true
    else f.framingError
  breakDetect :=
    if statusWrStrobe then false
    else if s.gotNewChar && s.isBreak then true
    else f.breakDetect
  rxOverrun :=
    if statusWrStrobe then false
    else if s.gotNewChar && f.rxCharReady then true
    else f.rxOverrun
  rxCharReady :=
    if rxRdStrobeOnset then false
    else if s.gotNewChar then true
    else f.rxCharReady

/-! ## nios_uart_0_regs -/

/-- The signals of the Avalon slave. -/
structure Bus where
  address : BitVec 3
  begintransfer : Bool
  chipselect : Bool
  readN : Bool
  writeN : Bool
  writedata : BitVec 16
  deriving DecidableEq, Repr

def Bus.rxRdStrobe (b : Bus) : Bool := b.chipselect && !b.readN && b.address == 0
def Bus.txWrStrobe (b : Bus) : Bool := b.chipselect && !b.writeN && b.address == 1
def Bus.statusWrStrobe (b : Bus) : Bool := b.chipselect && !b.writeN && b.address == 2
def Bus.controlWrStrobe (b : Bus) : Bool := b.chipselect && !b.writeN && b.address == 3

structure State where
  tx : Tx
  line : RxLine
  flags : RxFlags
  txData : Byte
  controlReg : BitVec 10
  readdata : BitVec 16
  deriving DecidableEq, Repr

def reset : State := ⟨.reset, .reset, .reset, 0, 0, 0⟩

def State.anyError (s : State) : Bool :=
  s.tx.txOverrun || s.flags.rxOverrun || s.flags.framingError || s.flags.breakDetect

/-- From the top: eop, cts and dcts, which are tied to zero, a zero, and the flags; the
lowest bit is the parity error, which is tied to zero as well. -/
def State.statusReg (s : State) : BitVec 13 :=
  0#4 ++ BitVec.ofBool s.anyError ++ BitVec.ofBool s.flags.rxCharReady ++
    BitVec.ofBool s.tx.txReady ++ BitVec.ofBool s.tx.txShiftEmpty ++
    BitVec.ofBool s.tx.txOverrun ++ BitVec.ofBool s.flags.rxOverrun ++
    BitVec.ofBool s.flags.breakDetect ++ BitVec.ofBool s.flags.framingError ++ 0#1

def State.selectedReadData (s : State) (address : BitVec 3) : BitVec 16 :=
  if address = 0 then s.line.rxData.setWidth 16
  else if address = 1 then s.txData.setWidth 16
  else if address = 2 then s.statusReg.setWidth 16
  else if address = 3 then s.controlReg.setWidth 16
  else 0

def State.txIn (s : State) (b : Bus) : TxIn where
  begintransfer := b.begintransfer
  doForceBreak := s.controlReg.getLsbD 9
  statusWrStrobe := b.statusWrStrobe
  txData := s.txData
  txWrStrobe := b.txWrStrobe

/-- One clock of the whole UART. -/
def State.step (divisor : Divisor) (s : State) (b : Bus) (syncRxd : Bool) : State where
  tx := s.tx.step divisor (s.txIn b)
  line := s.line.step divisor syncRxd
  flags := s.flags.step s.line (b.rxRdStrobe && b.begintransfer) b.statusWrStrobe
  txData := if b.txWrStrobe then b.writedata.setWidth 8 else s.txData
  controlReg := if b.controlWrStrobe then b.writedata.setWidth 10 else s.controlReg
  readdata := s.selectedReadData b.address

/-! ## A master on the bus -/

inductive Access where
  | read (address : BitVec 3)
  | write (address : BitVec 3) (data : BitVec 16)
  deriving DecidableEq, Repr

/-- A clock without an access, the first clock of one, or one more clock of the last one. -/
inductive Cycle where
  | idle
  | first (access : Access)
  | again
  deriving DecidableEq, Repr

/-- The access on the bus, after the one of the clock before. -/
def Cycle.access (last : Option Access) : Cycle → Option Access
  | .idle => none
  | .first access => some access
  | .again => last

def Cycle.begins : Cycle → Bool
  | .first _ => true
  | _ => false

def signals (begintransfer : Bool) : Option Access → Bus
  | none => ⟨0, false, false, true, true, 0⟩
  | some (.read address) => ⟨address, begintransfer, true, false, true, 0⟩
  | some (.write address data) => ⟨address, begintransfer, true, true, false, data⟩

/-- The UART and the access of the clock before. -/
structure Slave where
  uart : State
  last : Option Access
  deriving DecidableEq, Repr

def Slave.step (divisor : Divisor) (s : Slave) (i : Cycle × Bool) : Slave :=
  ⟨s.uart.step divisor (signals i.1.begins (i.1.access s.last)) i.2, i.1.access s.last⟩

def Slave.run (divisor : Divisor) (s : Slave) (is : List (Cycle × Bool)) : Slave :=
  is.foldl (Slave.step divisor) s

@[simp] theorem run_nil (divisor : Divisor) (s : Slave) : s.run divisor [] = s := rfl
@[simp] theorem run_cons (divisor : Divisor) (s : Slave) (i : Cycle × Bool)
    (is : List (Cycle × Bool)) : s.run divisor (i :: is) = (s.step divisor i).run divisor is := rfl
theorem run_append (divisor : Divisor) (s : Slave) (is js : List (Cycle × Bool)) :
    s.run divisor (is ++ js) = (s.run divisor is).run divisor js := List.foldl_append

def start : Slave := ⟨reset, none⟩

/-- The byte that a clock begins to write to TXDATA. -/
def Cycle.txdata : Cycle → Option Byte
  | .first (.write address data) => if address = 1 then some (data.setWidth 8) else none
  | _ => none

/-- A clock that begins a read of RXDATA. -/
def Cycle.rxdata : Cycle → Bool
  | .first (.read address) => address == 0
  | _ => false

/-- The status register is left alone: a write to it clears the error flags. -/
def Cycle.keeps : Cycle → Bool
  | .first (.write address _) => address != 2
  | _ => true

/-- The control register is left alone, as a program does that only sends and receives. -/
def Cycle.plain : Cycle → Bool
  | .first (.write address _) => address != 3
  | _ => true

/-- The levels of txd after each of some clocks. -/
def txds (divisor : Divisor) : Slave → List (Cycle × Bool) → List Bool
  | _, [] => []
  | s, i :: is => (s.step divisor i).uart.tx.txd :: txds divisor (s.step divisor i) is

end Uart
