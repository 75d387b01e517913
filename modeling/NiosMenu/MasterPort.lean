import NiosMenu.Interconnect

/-!
# The ports of the processor

`altera_merlin_master_translator` and `altera_merlin_master_agent`, as they stand behind
the data master and the instruction master. The processor keeps an access on its port
until waitrequest falls; the translator shows it to the network until it is accepted
there, and no longer.
-/
namespace MasterPort

open CommandMux Interconnect

/-! ## Packets -/

def write (d : BitVec 93) : Bool := d.getLsbD 55
def posted (d : BitVec 93) : Bool := d.getLsbD 54
def compressed (d : BitVec 93) : Bool := d.getLsbD 53
def byteenable (d : BitVec 93) : BitVec 4 := d.extractLsb' 32 4
def writedata (d : BitVec 93) : BitVec 32 := d.extractLsb' 0 32
def srcId (d : BitVec 93) : BitVec 3 := d.extractLsb' 74 3
def destId (d : BitVec 93) : BitVec 3 := d.extractLsb' 77 3

/-- What the processor puts on a port. -/
structure Request where
  read : Bool
  write : Bool
  address : BitVec 17
  byteenable : BitVec 4
  writedata : BitVec 32
  debugaccess : Bool
  deriving DecidableEq, Repr

/-- av_address_aligned: the address of the word. -/
def Request.aligned (r : Request) : BitVec 17 := r.address.extractLsb' 2 15 ++ 0#2

/-- The parameters of a port; the data master registers what comes in. -/
structure Port where
  useWrite : Bool
  registerIncomingSignals : Bool
  id : BitVec 3
  burstwrap : BitVec 3
  deriving DecidableEq, Repr

def port (i : Fin 2) : Port :=
  if i = dataMaster then ⟨true, true, 0, 7⟩ else ⟨false, false, 1, 3⟩

/-- INCR or WRAP -/
def Port.burstType (c : Port) : BitVec 2 := if c.burstwrap.getLsbD 2 then 1 else 2

/-- cp_data of the agent. From the top: the original burst size, the response status, the
cache, secure and debug bits, the thread, the destination that the router fills in, the
source, the quality of service, begin_burst and two sidebands, the burst type, size and
wrap, the byte count, exclusive, lock, read, write, posted, compressed, the address of the
word, the byte enables and the data. A master that makes no bursts compresses nothing. -/
def Port.cpData (c : Port) (read write : Bool) (r : Request) : BitVec 93 :=
  2#3 ++ 0#2 ++ 0#4 ++ 1#2 ++ BitVec.ofBool r.debugaccess ++ 0#1 ++ 0#3 ++ c.id ++ 0#4 ++
    c.burstType ++ 2#3 ++ c.burstwrap ++ 4#3 ++ 0#1 ++ 0#1 ++ BitVec.ofBool read ++
    BitVec.ofBool write ++ BitVec.ofBool write ++ 0#1 ++ r.aligned ++
    r.byteenable ++ r.writedata

/-- The registers of the translator, and hold_waitrequest of the agent. -/
structure State where
  readAccepted : Bool
  writeAccepted : Bool
  endBegintransfer : Bool
  holdWaitrequest : Bool
  deriving DecidableEq, Repr

def reset : State := ⟨false, false, false, true⟩

variable (c : Port) (s : State) (r : Request)

def Port.writePre (c : Port) (r : Request) : Bool := c.useWrite && r.write

def State.uavRead (s : State) (r : Request) : Bool := r.read && !s.readAccepted

def State.uavWrite (c : Port) (s : State) (r : Request) : Bool :=
  c.writePre r && !(c.registerIncomingSignals && s.writeAccepted)

def State.begintransfer (c : Port) (s : State) (r : Request) : Bool :=
  (s.uavWrite c r || s.uavRead r) && !s.endBegintransfer

/-- The command source of the agent. -/
def State.command (c : Port) (s : State) (r : Request) : Sink where
  valid := (s.uavWrite c r || s.uavRead r) && !s.holdWaitrequest
  beat := ⟨c.cpData (s.uavRead r) (s.uavWrite c r) r, 0, true, true⟩

def State.uavWaitrequest (s : State) (cpReady : Bool) : Bool := s.holdWaitrequest || !cpReady

def State.avWaitrequest (c : Port) (s : State) (r : Request) (cpReady readdatavalid : Bool) :
    Bool :=
  if c.registerIncomingSignals then
    if r.read then !readdatavalid
    else if c.writePre r then
      (s.begintransfer c r || s.uavWaitrequest cpReady) && !s.writeAccepted
    else true
  else if r.read then !readdatavalid
  else s.uavWaitrequest cpReady

def State.step (c : Port) (s : State) (r : Request) (cpReady readdatavalid : Bool) : State where
  readAccepted :=
    if !s.readAccepted then
      if s.avWaitrequest c r cpReady readdatavalid then r.read && !s.uavWaitrequest cpReady
      else false
    else if readdatavalid then false
    else true
  writeAccepted :=
    if c.registerIncomingSignals then
      if !s.avWaitrequest c r cpReady readdatavalid then false
      else if s.uavWrite c r && !s.uavWaitrequest cpReady then true
      else s.writeAccepted
    else s.writeAccepted
  endBegintransfer :=
    if s.begintransfer c r && s.uavWaitrequest cpReady then true
    else if s.uavWaitrequest cpReady then s.endBegintransfer
    else false
  holdWaitrequest := false

/-! ## What a command says -/

section Fields

variable (read write : Bool)

theorem read_cpData : (c.cpData read write r).getLsbD 56 = read := by
  simp only [Port.cpData, BitVec.getLsbD_append, Nat.reduceLT, Nat.reduceSub, if_false]
  simp

theorem write_cpData : MasterPort.write (c.cpData read write r) = write := by
  simp only [MasterPort.write, Port.cpData, BitVec.getLsbD_append, Nat.reduceLT, Nat.reduceSub,
    if_false]
  simp

theorem posted_cpData : posted (c.cpData read write r) = write := by
  simp only [posted, Port.cpData, BitVec.getLsbD_append, Nat.reduceLT, Nat.reduceSub, if_false]
  simp

theorem compressed_cpData : compressed (c.cpData read write r) = false := by
  simp only [compressed, Port.cpData, BitVec.getLsbD_append, Nat.reduceLT, Nat.reduceSub,
    if_false]
  simp

theorem address_cpData : (c.cpData read write r).extractLsb' 36 17 = r.aligned := by
  simp (disch := decide) only [Port.cpData, BitVec.extractLsb'_append_eq_of_le,
    BitVec.extractLsb'_append_eq_of_add_le, Nat.reduceSub, BitVec.extractLsb'_eq_self]

theorem byteenable_cpData : byteenable (c.cpData read write r) = r.byteenable := by
  simp (disch := decide) only [byteenable, Port.cpData, BitVec.extractLsb'_append_eq_of_le,
    BitVec.extractLsb'_append_eq_of_add_le, Nat.reduceSub, BitVec.extractLsb'_eq_self]

theorem writedata_cpData : writedata (c.cpData read write r) = r.writedata := by
  simp (disch := decide) only [writedata, Port.cpData, BitVec.extractLsb'_append_eq_of_add_le,
    BitVec.extractLsb'_eq_self]

theorem srcId_cpData : srcId (c.cpData read write r) = c.id := by
  simp (disch := decide) only [srcId, Port.cpData, BitVec.extractLsb'_append_eq_of_le,
    BitVec.extractLsb'_append_eq_of_add_le, Nat.reduceSub, BitVec.extractLsb'_eq_self]

end Fields

/-! ## One clock of a port -/

/-- The network accepts the command of the port. -/
def State.accepts (c : Port) (s : State) (r : Request) (cpReady : Bool) : Bool :=
  (s.command c r).valid && cpReady

/-- The processor sees its access end. -/
def State.completes (c : Port) (s : State) (r : Request) (cpReady readdatavalid : Bool) : Bool :=
  (r.read || c.writePre r) && !s.avWaitrequest c r cpReady readdatavalid

/-- An access that has been accepted and not been completed yet. -/
def State.underway (s : State) : Bool := s.readAccepted || s.writeAccepted

variable {c s r} {cpReady : Bool}

theorem accepts_eq : s.accepts c r cpReady =
    ((s.uavWrite c r || s.uavRead r) && !s.uavWaitrequest cpReady) := by
  rw [State.accepts, State.command, State.uavWaitrequest, Bool.not_or, Bool.not_not,
    Bool.and_assoc]

theorem writePre_read (hone : (r.read && r.write) = false) (hread : r.read = true) :
    c.writePre r = false := by
  rw [hread, Bool.true_and] at hone
  rw [Port.writePre, hone, Bool.and_false]

/-- A read is accepted once, and does not end before it is answered. -/
theorem step_read (hidle : s.underway = false) (hone : (r.read && r.write) = false)
    (hread : r.read = true) :
    s.completes c r cpReady false = false ∧ s.avWaitrequest c r cpReady false = true ∧
    (s.step c r cpReady false).readAccepted = s.accepts c r cpReady ∧
    (s.step c r cpReady false).writeAccepted = false := by
  obtain ⟨hnoRead, hnoWrite⟩ := Bool.or_eq_false_iff.mp hidle
  have hpre := writePre_read (c := c) hone hread
  have hwait : s.avWaitrequest c r cpReady false = true := by
    simp [State.avWaitrequest, hread]
  have huav : s.uavRead r = true := by rw [State.uavRead, hread, hnoRead]; rfl
  have hnever : s.uavWrite c r = false := by rw [State.uavWrite, hpre, Bool.false_and]
  refine ⟨by rw [State.completes, hwait, Bool.not_true, Bool.and_false], hwait, ?_, ?_⟩
  · simp [State.step, hnoRead, hwait, hread, accepts_eq, huav]
  · simp [State.step, hwait, hnever, hnoWrite]

/-- A write is accepted once; when it ends in a later clock, the port knows. -/
theorem step_write (hidle : s.underway = false) (hone : (r.read && r.write) = false)
    (hwrite : c.writePre r = true) :
    (s.completes c r cpReady false = true → s.accepts c r cpReady = true) ∧
    s.avWaitrequest c r cpReady false = !s.completes c r cpReady false ∧
    (s.step c r cpReady false).readAccepted = false ∧
    (s.step c r cpReady false).writeAccepted =
      (s.accepts c r cpReady && !s.completes c r cpReady false) := by
  obtain ⟨hnoRead, hnoWrite⟩ := Bool.or_eq_false_iff.mp hidle
  have hread : r.read = false := by
    by_contra hread
    rw [writePre_read hone (by simpa using hread)] at hwrite
    cases hwrite
  have huav : s.uavWrite c r = true := by rw [State.uavWrite, hwrite, hnoWrite]; simp
  have hcompletes : s.completes c r cpReady false = !s.avWaitrequest c r cpReady false := by
    rw [State.completes, hwrite, Bool.or_true, Bool.true_and]
  have haccepts : s.accepts c r cpReady = !s.uavWaitrequest cpReady := by
    rw [accepts_eq, huav, Bool.true_or, Bool.true_and]
  rw [hcompletes, Bool.not_not, haccepts]
  refine ⟨?_, rfl, ?_, ?_⟩
  · cases hwait : s.uavWaitrequest cpReady <;>
      simp [State.avWaitrequest, hread, hwrite, hnoWrite, hwait]
  · simp [State.step, hnoRead, hread]
  · cases hregister : c.registerIncomingSignals with
    | false => simp [State.step, State.avWaitrequest, hregister, hread, hnoWrite]
    | true =>
      cases hwait : s.avWaitrequest c r cpReady false <;>
        simp [State.step, hwait, hregister, huav, hnoWrite]

/-- Nothing happens to a port without an access. -/
theorem step_none (hidle : s.underway = false) (hread : r.read = false)
    (hwrite : c.writePre r = false) : s.accepts c r cpReady = false ∧
    s.completes c r cpReady false = false ∧ (s.step c r cpReady false).underway = false := by
  obtain ⟨hnoRead, hnoWrite⟩ := Bool.or_eq_false_iff.mp hidle
  have huav : s.uavWrite c r = false := by rw [State.uavWrite, hwrite, Bool.false_and]
  have hnever : s.uavRead r = false := by rw [State.uavRead, hread, Bool.false_and]
  refine ⟨?_, ?_, ?_⟩
  · rw [accepts_eq, huav, hnever, Bool.or_false, Bool.false_and]
  · rw [State.completes, hread, hwrite, Bool.or_false, Bool.false_and]
  · simp [State.underway, State.step, hnoRead, hread, huav, hnoWrite]

/-- A port that has nothing under way accepts an access at most once, and an access that has
been accepted either ends at once or keeps the processor waiting. -/
theorem step_idle (hidle : s.underway = false) (hone : (r.read && r.write) = false) :
    (s.step c r cpReady false).readAccepted = (r.read && s.accepts c r cpReady) ∧
    (s.step c r cpReady false).writeAccepted =
      (c.writePre r && (s.accepts c r cpReady && !s.completes c r cpReady false)) ∧
    (s.completes c r cpReady false = true → s.accepts c r cpReady = true ∧ r.read = false) ∧
    (s.accepts c r cpReady = true → s.completes c r cpReady false = false →
      (r.read || c.writePre r) = true ∧ s.avWaitrequest c r cpReady false = true) := by
  cases hread : r.read with
  | true =>
    obtain ⟨hcompletes, hwait, hreadAccepted, hwriteAccepted⟩ := step_read (c := c) hidle hone hread
    rw [hcompletes, hreadAccepted, hwriteAccepted, writePre_read hone hread]
    exact ⟨rfl, rfl, fun hnever => (by cases hnever), fun _ _ => ⟨rfl, hwait⟩⟩
  | false =>
    cases hwrite : c.writePre r with
    | true =>
      obtain ⟨haccepts, hwait, hreadAccepted, hwriteAccepted⟩ := step_write hidle hone hwrite
      refine ⟨hreadAccepted, hwriteAccepted, fun h => ⟨haccepts h, rfl⟩, fun _ h => ⟨rfl, ?_⟩⟩
      rw [hwait, h]
      rfl
    | false =>
      obtain ⟨haccepts, hcompletes, hnone⟩ := @step_none c s r cpReady hidle hread hwrite
      obtain ⟨hreadAccepted, hwriteAccepted⟩ := Bool.or_eq_false_iff.mp hnone
      rw [haccepts, hcompletes]
      exact ⟨hreadAccepted, hwriteAccepted, fun h => (by cases h), fun h => (by cases h)⟩

/-- What is accepted is what the processor asks for. -/
theorem uavRead_idle (hidle : s.underway = false) : s.uavRead r = r.read := by
  rw [State.uavRead, (Bool.or_eq_false_iff.mp hidle).1, Bool.not_false, Bool.and_true]

/-- A read that has been accepted ends with its answer. -/
theorem step_answered (haccepted : s.readAccepted = true) (hnoWrite : s.writeAccepted = false)
    (hone : (r.read && r.write) = false) (hread : r.read = true) :
    s.accepts c r cpReady = false ∧ s.completes c r cpReady true = true ∧
    (s.step c r cpReady true).underway = false := by
  have hpre := writePre_read (c := c) hone hread
  have huav : s.uavWrite c r = false := by rw [State.uavWrite, hpre, Bool.false_and]
  have hnever : s.uavRead r = false := by
    rw [State.uavRead, haccepted, Bool.not_true, Bool.and_false]
  have hwait : s.avWaitrequest c r cpReady true = false := by
    simp [State.avWaitrequest, hread]
  refine ⟨?_, ?_, ?_⟩
  · rw [accepts_eq, huav, hnever, Bool.or_false, Bool.false_and]
  · rw [State.completes, hread, hwait, Bool.true_or, Bool.not_false, Bool.and_true]
  · simp [State.underway, State.step, haccepted, hwait, hnoWrite]

/-- A write that has been accepted ends in the clock behind. -/
theorem step_written (hregister : c.registerIncomingSignals = true)
    (haccepted : s.writeAccepted = true) (hnoRead : s.readAccepted = false)
    (hone : (r.read && r.write) = false) (hwrite : c.writePre r = true) :
    s.accepts c r cpReady = false ∧ s.completes c r cpReady false = true ∧
    (s.step c r cpReady false).underway = false := by
  have hread : r.read = false := by
    by_contra hread
    rw [writePre_read hone (by simpa using hread)] at hwrite
    cases hwrite
  have huav : s.uavWrite c r = false := by
    rw [State.uavWrite, hregister, haccepted, Bool.true_and, Bool.not_true, Bool.and_false]
  have hnever : s.uavRead r = false := by rw [State.uavRead, hread, Bool.false_and]
  have hwait : s.avWaitrequest c r cpReady false = false := by
    simp [State.avWaitrequest, hregister, hread, hwrite, haccepted]
  refine ⟨?_, ?_, ?_⟩
  · rw [accepts_eq, huav, hnever, Bool.or_false, Bool.false_and]
  · rw [State.completes, hwrite, hwait, Bool.or_true, Bool.not_false, Bool.and_true]
  · simp [State.underway, State.step, hnoRead, hwait, hregister]

/-- A command that is not accepted stays, and the processor waits. -/
theorem command_kept (hidle : s.underway = false) (hvalid : (s.command c r).valid = true) :
    s.avWaitrequest c r false false = true ∧
    (s.step c r false false).command c r = s.command c r := by
  obtain ⟨hnoRead, hnoWrite⟩ := Bool.or_eq_false_iff.mp hidle
  have hheld : s.holdWaitrequest = false := by
    simpa using (Bool.and_eq_true_iff.mp hvalid).2
  have hwait : s.avWaitrequest c r false false = true := by
    simp [State.avWaitrequest, State.uavWaitrequest, hnoWrite]
  have hread : (s.step c r false false).uavRead r = s.uavRead r := by
    simp [State.uavRead, State.step, State.uavWaitrequest, hnoRead]
  have hwrite : (s.step c r false false).uavWrite c r = s.uavWrite c r := by
    simp [State.uavWrite, State.step, State.uavWaitrequest, hwait]
  refine ⟨hwait, ?_⟩
  rw [State.command, State.command, hread, hwrite, hheld]
  rfl

end MasterPort
