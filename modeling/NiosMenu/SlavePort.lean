import NiosMenu.MasterPort
import NiosMenu.ScFifo

/-!
# The ports of the devices

`altera_merlin_slave_agent` with its response FIFO and its burst uncompressor, and
`altera_merlin_slave_translator` in front of a device. A read that the device accepts is
kept in the FIFO, and is answered in the clock behind.
-/
namespace SlavePort

open CommandMux Interconnect MasterPort

/-! ## altera_merlin_burst_uncompressor -/

/-- The response FIFO at its output. -/
structure Stored where
  data : BitVec 94
  startofpacket : Bool
  endofpacket : Bool
  deriving DecidableEq, Repr, Inhabited

structure Uncompressor where
  busy : Bool
  byteCounter : BitVec 4
  addressBase : BitVec 17
  addressOffset : BitVec 17
  deriving DecidableEq, Repr

def Stored.packet (d : Stored) : BitVec 93 := d.data.extractLsb' 0 93
def Stored.generateResponse (d : Stored) : Bool := d.data.getLsbD 93
def Stored.addr (d : Stored) : BitVec 17 := d.packet.extractLsb' 36 17
def Stored.byteCnt (d : Stored) : BitVec 3 := d.packet.extractLsb' 59 3
def Stored.burstwrap (d : Stored) : BitVec 3 := d.packet.extractLsb' 62 3
def Stored.burstsize (d : Stored) : BitVec 3 := d.packet.extractLsb' 65 3

namespace Uncompressor

def reset : Uncompressor := ⟨false, 0, 0, 0⟩

variable (u : Uncompressor) (d : Stored) (valid ready : Bool)

def numSymbols : BitVec 3 := 4

def firstPacketBeat : Bool := valid && !u.busy

def sourceByteCnt : BitVec 3 :=
  if u.firstPacketBeat valid then d.byteCnt else u.byteCounter.setWidth 3

def lastPacketBeat : Bool :=
  !compressed d.packet ||
    if u.busy then valid && u.byteCounter.setWidth 3 == numSymbols
    else valid && d.byteCnt == numSymbols

/-- The burst wrap with its sign extended. -/
def addrWidthBurstwrap : BitVec 17 := d.burstwrap.signExtend 17

/-- bytes_in_transfer -/
def decodedBurstsize : BitVec 17 := 1 <<< d.burstsize.toNat

def sourceAddr : BitVec 17 :=
  if u.firstPacketBeat valid then d.addr else u.addressBase ||| u.addressOffset

def sinkReady : Bool := valid && ready && u.lastPacketBeat d valid

def step : Uncompressor where
  busy := if valid && ready then !u.lastPacketBeat d valid else u.busy
  byteCounter :=
    if valid && ready then
      if u.lastPacketBeat d valid then 0
      else if u.busy && 0 < u.byteCounter then
        (u.byteCounter.setWidth 3).setWidth 4 - numSymbols.setWidth 4
      else d.byteCnt.setWidth 4 - numSymbols.setWidth 4
    else u.byteCounter
  addressBase :=
    if u.firstPacketBeat valid && ready then d.addr &&& ~~~addrWidthBurstwrap d else u.addressBase
  addressOffset :=
    if ready && valid then
      ((if u.firstPacketBeat valid then d.addr else u.addressOffset) + decodedBurstsize d) &&&
        addrWidthBurstwrap d
    else u.addressOffset

end Uncompressor

/-! ## altera_merlin_slave_translator -/

/-- The parameters of a translator. -/
structure Timing where
  readLatency : Nat
  useWaitrequest : Bool
  readWait : BitVec 2
  writeWait : BitVec 2
  addressWidth : Nat
  deriving DecidableEq, Repr

def timing : Slave → Timing
  | .jtag => ⟨0, true, 1, 0, 1⟩
  | .sysid => ⟨0, false, 1, 0, 1⟩
  | .debug => ⟨0, true, 1, 0, 9⟩
  | .memory => ⟨1, false, 0, 0, 13⟩
  | .pushButton => ⟨0, false, 1, 0, 2⟩
  | .leds => ⟨0, false, 1, 0, 2⟩
  | .uart => ⟨0, false, 1, 1, 3⟩

/-- What a device drives. -/
structure Device where
  waitrequest : Bool
  readdata : BitVec 32
  deriving DecidableEq, Repr

structure Translator where
  waitLatencyCounter : BitVec 2
  waitrequestResetOverride : Bool
  readLatencyShiftReg : Bool
  avReaddataPre : BitVec 32
  endBegintransfer : Bool
  deriving DecidableEq, Repr

def Translator.reset : Translator := ⟨0, true, false, 0, false⟩

/-- LOG2_OF_LATENCY_SUM > 1 -/
def Timing.counts (p : Timing) : Bool := p.readWait != 0 || p.writeWait != 0

def Translator.uavWaitrequest (p : Timing) (t : Translator) (uavWrite : Bool) (v : Device) : Bool :=
  if p.useWaitrequest then v.waitrequest
  else
    (p.counts && t.waitLatencyCounter != if uavWrite then p.writeWait else p.readWait) ||
      t.waitrequestResetOverride

/-- The signals that the device gets. -/
structure Signals where
  address : Nat
  read : Bool
  write : Bool
  chipselect : Bool
  begintransfer : Bool
  byteenable : BitVec 4
  writedata : BitVec 32
  deriving DecidableEq, Repr

def Translator.begintransfer (t : Translator) (uavRead uavWrite : Bool) : Bool :=
  (uavWrite || uavRead) && !t.endBegintransfer

def Translator.uavReaddata (p : Timing) (t : Translator) (v : Device) : BitVec 32 :=
  if p.readLatency = 0 then t.avReaddataPre else v.readdata

def Translator.step (p : Timing) (t : Translator) (uavRead uavWrite : Bool) (v : Device) :
    Translator where
  waitLatencyCounter :=
    if !t.uavWaitrequest p uavWrite v || t.waitrequestResetOverride then 0
    else if uavRead || uavWrite then t.waitLatencyCounter + 1
    else 0
  waitrequestResetOverride := false
  readLatencyShiftReg :=
    uavRead && !t.uavWaitrequest p uavWrite v && !t.waitrequestResetOverride
  avReaddataPre := v.readdata
  endBegintransfer :=
    if t.begintransfer uavRead uavWrite && t.uavWaitrequest p uavWrite v &&
      !t.waitrequestResetOverride then true
    else if t.uavWaitrequest p uavWrite v then t.endBegintransfer
    else false

/-! ## altera_merlin_slave_agent -/

/-- A command without its data and its secure and cache bits. -/
def stripped (d : BitVec 93) : BitVec 93 :=
  d.extractLsb' 84 9 ++ 0#2 ++ d.extractLsb' 81 1 ++ d.extractLsb' 32 49 ++ 0#32

/-- rf_source_data, with a bit on top for a response that is to be made up. -/
def rfSourceData (needsResponseSynthesis : Bool) (d : BitVec 93) : BitVec 94 :=
  BitVec.ofBool needsResponseSynthesis ++ stripped d

structure State where
  fifo : ScFifo.State 1 Stored
  uncompressor : Uncompressor
  translator : Translator

def reset : State := ⟨ScFifo.reset 1, .reset, .reset⟩

/-- A FIFO of two slots tells what it has and has room for without looking at its inputs. -/
def idle : ScFifo.Inputs Stored := ⟨false, default, false⟩

def State.rfSourceReady (s : State) : Bool := s.fifo.inReady false idle
def State.rfSinkValid (s : State) : Bool := s.fifo.outValid false idle
def State.rfSink (s : State) : Stored := s.fifo.outPayload false idle

variable (p : Timing) (s : State) (cp : Sink) (v : Device) (rpReady : Bool)

/-- m0_read; the parameters let a command through whatever its byte enables are. -/
def State.uavRead (s : State) (cp : Sink) : Bool :=
  s.rfSourceReady &&
    ((cp.valid && compressed cp.beat.data) || (cp.valid && Interconnect.read cp.beat))

def State.uavWrite (s : State) (cp : Sink) : Bool :=
  s.rfSourceReady && (cp.valid && write cp.beat.data)

def State.uavWaitrequest (p : Timing) (s : State) (cp : Sink) (v : Device) : Bool :=
  s.translator.uavWaitrequest p (s.uavWrite cp) v

def State.cpReady (p : Timing) (s : State) (cp : Sink) (v : Device) : Bool :=
  !s.uavWaitrequest p cp v && s.rfSourceReady

def nonpostedWriteEndofpacket (cp : Sink) : Bool :=
  !posted cp.beat.data && (cp.valid && write cp.beat.data) && cp.beat.endofpacket

def State.rfSourceValid (p : Timing) (s : State) (cp : Sink) (v : Device) : Bool :=
  ((cp.valid && Interconnect.read cp.beat) || (cp.valid && compressed cp.beat.data) ||
    nonpostedWriteEndofpacket cp) && s.rfSourceReady && s.cpReady p cp v

/-- The answer of the device, which passes an adapter without an error line. -/
def State.rdataValid (s : State) : Bool := s.translator.readLatencyShiftReg

def State.sinkValid (s : State) : Bool :=
  s.rfSinkValid && (s.rdataValid || s.rfSink.generateResponse)

def State.rfSinkReady (s : State) (rpReady : Bool) : Bool :=
  s.uncompressor.sinkReady s.rfSink s.sinkValid rpReady

/-- rp_data: the command again, with source and destination exchanged, the burst taken
apart, an all clear for the response status and the data that has been read. -/
def State.rpData (p : Timing) (s : State) (v : Device) : BitVec 93 :=
  let d := s.rfSink.packet
  d.extractLsb' 90 3 ++ 0#2 ++ d.extractLsb' 80 8 ++ srcId d ++ destId d ++ d.extractLsb' 62 12 ++
    s.uncompressor.sourceByteCnt s.rfSink s.sinkValid ++ d.extractLsb' 57 2 ++
    BitVec.ofBool (d.getLsbD 56 || compressed d) ++ BitVec.ofBool (write d) ++
    BitVec.ofBool (posted d) ++ 0#1 ++ s.uncompressor.sourceAddr s.rfSink s.sinkValid ++
    byteenable d ++ s.translator.uavReaddata p v

/-- The response of the device. -/
def State.rp (p : Timing) (s : State) (v : Device) : Sink where
  valid := s.rdataValid || s.sinkValid
  beat :=
    { data := s.rpData p v
      channel := 0
      startofpacket := (write s.rfSink.packet || s.rfSink.startofpacket) && !s.uncompressor.busy
      endofpacket :=
        s.rfSink.endofpacket && s.uncompressor.lastPacketBeat s.rfSink s.sinkValid }

def State.fifoInputs (p : Timing) (s : State) (cp : Sink) (v : Device) (rpReady : Bool) :
    ScFifo.Inputs Stored where
  inValid := s.rfSourceValid p cp v
  inPayload :=
    { data := rfSourceData (nonpostedWriteEndofpacket cp) cp.beat.data
      startofpacket := cp.beat.startofpacket
      endofpacket := cp.beat.endofpacket }
  outReady := s.rfSinkReady rpReady

def State.step (p : Timing) (s : State) (cp : Sink) (v : Device) (rpReady : Bool) : State where
  fifo := s.fifo.step false (s.fifoInputs p cp v rpReady)
  uncompressor := s.uncompressor.step s.rfSink s.sinkValid rpReady
  translator := s.translator.step p (s.uavRead cp) (s.uavWrite cp) v

/-- A transfer ends at the device. -/
def State.ends (p : Timing) (s : State) (cp : Sink) (v : Device) : Bool :=
  (s.uavRead cp || s.uavWrite cp) && !s.uavWaitrequest p cp v

/-- What the translator shows to the device. -/
def State.signals (p : Timing) (s : State) (cp : Sink) : Signals where
  address := (address cp.beat).toNat / 4 % 2 ^ p.addressWidth
  read := s.uavRead cp
  write := s.uavWrite cp &&
    (p.useWaitrequest || !p.counts || s.translator.waitLatencyCounter ≤ p.writeWait)
  chipselect := s.uavRead cp || s.uavWrite cp
  begintransfer := s.translator.begintransfer (s.uavRead cp) (s.uavWrite cp)
  byteenable := byteenable cp.beat.data
  writedata := writedata cp.beat.data

/-! ## A read on its way -/

section Fields

variable (d : BitVec 93)

theorem packet_stored (synthesis sop eop : Bool) :
    Stored.packet ⟨rfSourceData synthesis d, sop, eop⟩ = stripped d :=
  BitVec.extractLsb'_append_eq_right

theorem generateResponse_stored (synthesis sop eop : Bool) :
    Stored.generateResponse ⟨rfSourceData synthesis d, sop, eop⟩ = synthesis := by
  rw [Stored.generateResponse, rfSourceData, BitVec.getLsbD_append, if_neg (by decide)]
  cases synthesis <;> rfl

/-- The bits between the data and the protection are kept. -/
theorem getLsbD_stripped {i : Nat} (hlo : 32 ≤ i) (hhi : i < 81) :
    (stripped d).getLsbD i = d.getLsbD i := by
  rw [stripped, BitVec.getLsbD_append, if_neg (by omega), BitVec.getLsbD_append,
    if_pos (by omega), BitVec.getLsbD_extractLsb', decide_eq_true (by omega), Bool.true_and,
    Nat.add_sub_cancel' hlo]

theorem extract_stripped {start len : Nat} (hlo : 32 ≤ start) (hhi : start + len ≤ 81) :
    (stripped d).extractLsb' start len = d.extractLsb' start len := by
  apply BitVec.eq_of_getLsbD_eq
  intro i hi
  rw [BitVec.getLsbD_extractLsb', BitVec.getLsbD_extractLsb',
    getLsbD_stripped d (by omega) (by omega)]

end Fields

section Response

variable (p : Timing) (s : State) (v : Device)

theorem destId_rpData : destId (s.rpData p v) = srcId s.rfSink.packet := by
  simp (disch := decide) only [destId, State.rpData, BitVec.extractLsb'_append_eq_of_le,
    BitVec.extractLsb'_append_eq_of_add_le, Nat.reduceSub, BitVec.extractLsb'_eq_self]

theorem read_rpData : (s.rpData p v).getLsbD 56 =
    (s.rfSink.packet.getLsbD 56 || compressed s.rfSink.packet) := by
  simp only [State.rpData, BitVec.getLsbD_append, Nat.reduceLT, Nat.reduceSub, if_false]
  simp

theorem readdata_rpData :
    (s.rpData p v).extractLsb' 0 32 = s.translator.uavReaddata p v := by
  simp (disch := decide) only [State.rpData, BitVec.extractLsb'_append_eq_of_add_le,
    BitVec.extractLsb'_eq_self]

end Response

/-- The port waits for the answer to a read, or for nothing. -/
structure Answers (s : State) (o : Option Stored) : Prop where
  holds : ScFifo.Holds s.fifo o.toList
  due : s.translator.readLatencyShiftReg = o.isSome
  idle : s.uncompressor.busy = false
  plain : ∀ d ∈ o, d.generateResponse = false ∧ compressed d.packet = false

theorem answers_reset : Answers reset none :=
  ⟨ScFifo.holds_reset, rfl, rfl, by simp⟩

variable {p : Timing} {s : State} {o : Option Stored} {cp : Sink} {v : Device} {rpReady : Bool}

theorem rfSourceReady_eq (h : Answers s o) : s.rfSourceReady = true := by
  rw [State.rfSourceReady, ScFifo.inReady_eq _ h.holds]
  cases o <;> rfl

theorem rfSinkValid_eq (h : Answers s o) : s.rfSinkValid = o.isSome := by
  rw [State.rfSinkValid, ScFifo.outValid_eq _ h.holds]
  cases o <;> rfl

theorem rfSink_some {d : Stored} (h : Answers s (some d)) : s.rfSink = d :=
  ScFifo.outPayload_cons _ h.holds

theorem sinkValid_eq (h : Answers s o) : s.sinkValid = o.isSome := by
  rw [State.sinkValid, State.rdataValid, h.due, rfSinkValid_eq h]
  cases o <;> simp

theorem valid_rp (h : Answers s o) : (s.rp p v).valid = o.isSome := by
  rw [State.rp, State.rdataValid, h.due, sinkValid_eq h, Bool.or_self]

theorem lastPacketBeat_plain {u : Uncompressor} {d : Stored} {valid : Bool}
    (h : compressed d.packet = false) : u.lastPacketBeat d valid = true := by
  rw [Uncompressor.lastPacketBeat, h, Bool.not_false, Bool.true_or]

/-- The command at a port, as the ports of the processor make them. -/
structure Proper (cp : Sink) : Prop where
  compressed : compressed cp.beat.data = false
  posted : posted cp.beat.data = write cp.beat.data
  some : Interconnect.read cp.beat = true ∨ write cp.beat.data = true

/-- The device takes the command. -/
def State.takes (p : Timing) (s : State) (cp : Sink) (v : Device) : Bool :=
  cp.valid && s.cpReady p cp v

def stored (cp : Sink) : Stored :=
  ⟨rfSourceData false cp.beat.data, cp.beat.startofpacket, cp.beat.endofpacket⟩

theorem uavRead_eq (h : Answers s o) (hproper : cp.valid = true → Proper cp) :
    s.uavRead cp = (cp.valid && Interconnect.read cp.beat) := by
  rw [State.uavRead, rfSourceReady_eq h, Bool.true_and]
  cases hvalid : cp.valid with
  | false => rfl
  | true => rw [(hproper hvalid).compressed, Bool.and_false, Bool.false_or]

theorem ends_eq (h : Answers s o) (hproper : cp.valid = true → Proper cp) :
    s.ends p cp v = s.takes p cp v := by
  rw [State.ends, uavRead_eq h hproper, State.uavWrite, State.takes, State.cpReady,
    rfSourceReady_eq h, Bool.true_and, Bool.and_true]
  cases hvalid : cp.valid with
  | false => rfl
  | true => obtain hread | hwrite := (hproper hvalid).some <;> simp [*]

theorem rfSourceValid_eq (h : Answers s o) (hproper : cp.valid = true → Proper cp) :
    s.rfSourceValid p cp v = (s.takes p cp v && Interconnect.read cp.beat) := by
  rw [State.rfSourceValid, rfSourceReady_eq h, Bool.and_true, State.takes,
    nonpostedWriteEndofpacket]
  cases hvalid : cp.valid with
  | false => simp
  | true =>
    rw [(hproper hvalid).compressed, (hproper hvalid).posted]
    cases Interconnect.read cp.beat <;> simp

theorem packet_stored_cp (cp : Sink) : (stored cp).packet = stripped cp.beat.data :=
  packet_stored _ _ _ _

theorem takes_valid (h : s.takes p cp v = true) : cp.valid = true := (Bool.and_eq_true_iff.mp h).1

theorem rfSinkReady_eq (h : Answers s o) (hready : o.isSome = true → rpReady = true) :
    s.rfSinkReady rpReady = o.isSome := by
  rw [State.rfSinkReady, Uncompressor.sinkReady, sinkValid_eq h]
  cases o with
  | none => rfl
  | some d =>
    rw [hready rfl, rfSink_some h, lastPacketBeat_plain (h.plain d rfl).2]
    rfl

/-- The FIFO behind a clock. -/
theorem fifo_step (h : Answers s o) (hproper : cp.valid = true → Proper cp)
    (hready : o.isSome = true → rpReady = true) :
    ScFifo.Holds (s.step p cp v rpReady).fifo
      (if s.takes p cp v && Interconnect.read cp.beat then [stored cp] else []) := by
  have hnext := ScFifo.holds_next (s.fifoInputs p cp v rpReady) false h.holds
  have hwrite : s.fifo.write false (s.fifoInputs p cp v rpReady) =
      (s.takes p cp v && Interconnect.read cp.beat) := by
    rw [ScFifo.State.write, ScFifo.inReady_eq _ h.holds, ← rfSourceValid_eq h hproper]
    cases o <;> rfl
  have hread : s.fifo.read false (s.fifoInputs p cp v rpReady) = o.isSome := by
    rw [ScFifo.read_eq _ h.holds]
    change (s.rfSinkReady rpReady && _) = _
    rw [rfSinkReady_eq h hready]
    cases o <;> rfl
  have hpayload : s.takes p cp v = true →
      (s.fifoInputs p cp v rpReady).inPayload = stored cp := by
    intro htakes
    have hp := hproper (takes_valid htakes)
    have hnone : nonpostedWriteEndofpacket cp = false := by
      rw [nonpostedWriteEndofpacket, hp.posted]
      cases write cp.beat.data <;> simp
    rw [State.fifoInputs, hnone, stored]
  rw [hwrite, hread, ScFifo.next] at hnext
  cases htakes : s.takes p cp v && Interconnect.read cp.beat with
  | false =>
    rw [htakes] at hnext
    cases o <;> exact hnext
  | true =>
    rw [htakes, hpayload (Bool.and_eq_true_iff.mp htakes).1] at hnext
    cases o <;> exact hnext

/-- One clock: the answer goes if the network takes it, and the next read is waited for. -/
theorem answers_step (h : Answers s o) (hproper : cp.valid = true → Proper cp)
    (hready : o.isSome = true → rpReady = true)
    (hstart : s.translator.waitrequestResetOverride = true → cp.valid = false) :
    Answers (s.step p cp v rpReady)
      (if s.takes p cp v && Interconnect.read cp.beat then some (stored cp) else none) := by
  refine ⟨?_, ?_, ?_, ?_⟩
  · rw [apply_ite Option.toList]
    exact fifo_step h hproper hready
  · have hdue : (s.step p cp v rpReady).translator.readLatencyShiftReg =
        (s.takes p cp v && Interconnect.read cp.beat) := by
      change (s.uavRead cp && !s.uavWaitrequest p cp v &&
        !s.translator.waitrequestResetOverride) = _
      rw [uavRead_eq h hproper, State.takes, State.cpReady, rfSourceReady_eq h, Bool.and_true]
      cases hoverride : s.translator.waitrequestResetOverride with
      | false => cases cp.valid <;> simp [Bool.and_comm]
      | true => simp [hstart hoverride]
    rw [hdue]
    cases s.takes p cp v && Interconnect.read cp.beat <;> rfl
  · change (if s.sinkValid && rpReady then !s.uncompressor.lastPacketBeat s.rfSink s.sinkValid
      else s.uncompressor.busy) = false
    rw [sinkValid_eq h, h.idle]
    cases o with
    | none => rfl
    | some d =>
      rw [rfSink_some h, lastPacketBeat_plain (h.plain d rfl).2]
      simp
  · intro d hd
    obtain ⟨htaken, hd⟩ := Option.ite_none_right_eq_some.mp hd
    obtain rfl := Option.some.inj hd
    have htakes : s.takes p cp v = true := (Bool.and_eq_true_iff.mp htaken).1
    refine ⟨generateResponse_stored _ _ _ _, ?_⟩
    rw [packet_stored_cp, compressed, getLsbD_stripped _ (by decide) (by decide)]
    exact (hproper (takes_valid htakes)).compressed

end SlavePort
