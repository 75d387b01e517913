import NiosMenu.LcdBus

/-!
# From the processor to the lcd module

The valid bits of the processor with its custom instruction port, the crossing that looks at
the number of an instruction, the translator that counts its clocks, and the lcd module behind
it. The words fetched, the wait states and what the other instructions do are inputs. Every
`ALT_CI_LCD_0` executed strobes the module for four clocks and holds its operands for one clock
more; a custom instruction with another number is never done.
-/
namespace CustomInstruction

open Firmware LcdModule LcdBus

/-! ## altera_customins_slave_translator -/

/-- With NUM_FIXED_CYCLES = 0 the counter has two bits and starts from minus two. -/
structure Translator where
  running : Bool
  count : BitVec 2
  deriving DecidableEq, Repr

def Translator.reset : Translator := ⟨false, -2#2⟩

/-- USE_DONE is zero. -/
def Translator.genDone (t : Translator) : Bool := t.count == 0

def Translator.step (t : Translator) (clken start : Bool) : Translator :=
  if clken then
    if t.genDone then .reset
    else ⟨start || t.running, if t.running then t.count - 1 else t.count⟩
  else t

/-! ## nios_nios2_cpu -/

def iwOp (iw : Word) : BitVec 6 := iw.extractLsb' 0 6
def iwA (iw : Word) : BitVec 5 := iw.extractLsb' 27 5
def iwB (iw : Word) : BitVec 5 := iw.extractLsb' 22 5
def iwN (iw : Word) : BitVec 8 := iw.extractLsb' 6 8

def opLcd0 (iw : Word) : Bool := iwOp iw == 50

/-- Exactly one of the five valid bits is set at a time. -/
structure Cpu where
  iRead : Bool
  dValid : Bool
  rValid : Bool
  eValidFromR : Bool
  wValid : Bool
  dIw : Word
  rCtrlCustomMulti : Bool
  eCiMultiStart : Bool
  eCiMultiClkEn : Bool
  registers : BitVec 5 → Word
  rfA : Word
  rfB : Word
  eSrc1 : Word
  eSrc2 : Word

/-- The instruction bus, the stall and the operands of any other instruction in hand, the
register it writes, and what the register file shows where it is read and written at once. -/
structure CpuIn where
  iWaitrequest : Bool
  fIw : Word
  otherStall : Bool
  otherSrc1 : Word
  otherSrc2 : Word
  write : Option (BitVec 5 × Word)
  mixed : Word

def Cpu.reset (registers : BitVec 5 → Word) : Cpu where
  iRead := true
  dValid := false
  rValid := false
  eValidFromR := false
  wValid := false
  dIw := 0
  rCtrlCustomMulti := false
  eCiMultiStart := false
  eCiMultiClkEn := false
  registers := registers
  rfA := 0
  rfB := 0
  eSrc1 := 0
  eSrc2 := 0

def Cpu.fValid (s : Cpu) (i : CpuIn) : Bool := s.iRead && !i.iWaitrequest

def Cpu.eCiMultiStall (s : Cpu) (done : Bool) : Bool :=
  s.rCtrlCustomMulti && s.eValidFromR && !done

/-- Loads, stores and shifts stall while they are in the execute stage. -/
def Cpu.eStall (s : Cpu) (i : CpuIn) (done : Bool) : Bool :=
  !s.rCtrlCustomMulti && s.eValidFromR && i.otherStall || s.eCiMultiStall done

/-- The register file has its address registers on the side of the reader. -/
def Cpu.rfRead (s : Cpu) (i : CpuIn) (r : BitVec 5) : Word :=
  if s.wValid && i.write.any (·.1 == r) then i.mixed else s.registers r

def Cpu.step (s : Cpu) (i : CpuIn) (done : Bool) : Cpu where
  iRead := s.wValid || s.iRead && i.iWaitrequest
  dValid := s.fValid i
  rValid := s.dValid
  eValidFromR := s.rValid || s.eStall i done
  wValid := s.eValidFromR && !s.eStall i done
  dIw := if s.fValid i then i.fIw else s.dIw
  rCtrlCustomMulti := opLcd0 s.dIw
  eCiMultiStart := if s.eCiMultiStart then false else s.rCtrlCustomMulti && s.rValid
  eCiMultiClkEn := if s.eCiMultiClkEn then !done else s.rCtrlCustomMulti && s.rValid
  registers := fun r =>
    match i.write with
    | some (c, v) => if s.wValid && r == c then v else s.registers r
    | none => s.registers r
  rfA := s.rfRead i (iwA s.dIw)
  rfB := s.rfRead i (iwB s.dIw)
  eSrc1 := if s.rCtrlCustomMulti then s.rfA else i.otherSrc1
  eSrc2 := if s.rCtrlCustomMulti then s.rfB else i.otherSrc2

/-! ## nios_nios2_custom_instruction_master_multi_xconnect -/

def select0 (n : BitVec 8) : Bool := 0 ≤ n && n < 1

/-! ## All of them on one clock -/

structure Machine where
  cpu : Cpu
  translator : Translator
  lcd : Regs

/-- What the lcd module sees at a clock. -/
def Machine.clock (s : Machine) : Clock := ⟨s.cpu.eCiMultiClkEn, s.cpu.eSrc1, s.cpu.eSrc2⟩

def Machine.selected (s : Machine) : Bool := select0 (iwN s.cpu.dIw)

/-- The crossing gates start and done, but not the clock enable. -/
def Machine.done (s : Machine) : Bool := s.selected && s.translator.genDone

def Machine.step (s : Machine) (i : CpuIn) : Machine where
  cpu := s.cpu.step i s.done
  translator := s.translator.step s.cpu.eCiMultiClkEn (s.selected && s.cpu.eCiMultiStart)
  lcd := posedge s.lcd s.clock

def run (s : Machine) (is : List CpuIn) : Machine := is.foldl Machine.step s

@[simp] theorem run_nil (s : Machine) : run s [] = s := rfl
@[simp] theorem run_cons (s : Machine) (i : CpuIn) (is : List CpuIn) :
    run s (i :: is) = run (s.step i) is := rfl

/-- The clocks that the lcd module sees along a run. -/
def trace : Machine → List CpuIn → List Clock
  | _, [] => []
  | s, i :: is => s.clock :: trace (s.step i) is

/-- The custom instruction that passes the operand stage, with the registers it names. -/
def Machine.issue (s : Machine) : List Op :=
  if s.cpu.rValid && opLcd0 s.cpu.dIw then
    [.instr (s.cpu.registers (iwA s.cpu.dIw)) (s.cpu.registers (iwB s.cpu.dIw))]
  else []

def executed : Machine → List CpuIn → List Op
  | _, [] => []
  | s, i :: is => s.issue ++ executed (s.step i) is

/-- The word that the processor fetches at a clock. -/
def Machine.fetch (s : Machine) (i : CpuIn) : List Word :=
  if s.cpu.fValid i then [i.fIw] else []

def fetched : Machine → List CpuIn → List Word
  | _, [] => []
  | s, i :: is => s.fetch i ++ fetched (s.step i) is

/-- A custom instruction has the number of the lcd module. -/
def Addressed (iw : Word) : Prop := opLcd0 iw = true → select0 (iwN iw) = true

instance decidableAddressed (iw : Word) : Decidable (Addressed iw) :=
  inferInstanceAs (Decidable (_ → _))

/-- A custom instruction with another number passes the operand stage. -/
def Machine.foreign (s : Machine) : Bool := s.cpu.rValid && opLcd0 s.cpu.dIw && !s.selected

/-! ## The stages of an instruction -/

inductive Stage where
  | fetch
  | decode
  | operands
  | other
  | strobe (k : Nat)
  | stuck
  | writeback
  deriving DecidableEq, Repr

/-- The custom instruction port at rest. -/
structure Idle (s : Machine) : Prop where
  start : s.cpu.eCiMultiStart = false
  clkEn : s.cpu.eCiMultiClkEn = false
  translator : s.translator = .reset

/-- The instruction word has been decoded and its registers have been read. -/
structure Latched (s : Cpu) : Prop where
  custom : s.rCtrlCustomMulti = opLcd0 s.dIw
  rfA : s.rfA = s.registers (iwA s.dIw)
  rfB : s.rfB = s.registers (iwB s.dIw)

/-- The operands stand at the port. -/
structure Sourced (s : Cpu) : Prop where
  src1 : s.eSrc1 = s.registers (iwA s.dIw)
  src2 : s.eSrc2 = s.registers (iwB s.dIw)

/-- The translator after some clocks of an instruction. -/
def counted : Nat → Translator
  | 0 => ⟨false, 2#2⟩
  | 1 => ⟨true, 2#2⟩
  | 2 => ⟨true, 1#2⟩
  | _ => ⟨true, 0#2⟩

def Stage.valid : Stage → Bool × Bool × Bool × Bool × Bool
  | .fetch => (true, false, false, false, false)
  | .decode => (false, true, false, false, false)
  | .operands => (false, false, true, false, false)
  | .other | .strobe _ | .stuck => (false, false, false, true, false)
  | .writeback => (false, false, false, false, true)

def Cpu.valid (s : Cpu) : Bool × Bool × Bool × Bool × Bool :=
  (s.iRead, s.dValid, s.rValid, s.eValidFromR, s.wValid)

/-- The registers as they stand in a stage. -/
def At (s : Machine) : Stage → Prop
  | .fetch | .decode => Idle s
  | .operands => Idle s ∧ Latched s.cpu
  | .other => Idle s ∧ Latched s.cpu ∧ opLcd0 s.cpu.dIw = false
  | .strobe k => s.cpu.eCiMultiStart = (k == 0) ∧ s.cpu.eCiMultiClkEn = true ∧
      s.translator = counted k ∧ k < 4 ∧ Latched s.cpu ∧
      (opLcd0 s.cpu.dIw = true ∧ s.selected = true) ∧ Sourced s.cpu
  | .stuck => s.cpu.eCiMultiClkEn = true ∧ Latched s.cpu ∧
      opLcd0 s.cpu.dIw = true ∧ s.selected = false
  | .writeback => Idle s ∧ (opLcd0 s.cpu.dIw = true → Sourced s.cpu)

structure Tracks (st : Stage) (s : Machine) : Prop where
  valid : s.cpu.valid = st.valid
  stands : At s st

/-- The clocks that the instruction in hand still owes to the lcd module. -/
def owed (s : Machine) : Stage → List Clock
  | .strobe k => List.replicate (4 - k) ⟨true, s.cpu.eSrc1, s.cpu.eSrc2⟩ ++
      [⟨false, s.cpu.eSrc1, s.cpu.eSrc2⟩]
  | .writeback => if opLcd0 s.cpu.dIw then [⟨false, s.cpu.eSrc1, s.cpu.eSrc2⟩] else []
  | _ => []

/-- Without a retiring instruction the register file is read as it stands. -/
theorem rfRead_quiet {s : Cpu} (h : s.wValid = false) (i : CpuIn) (r : BitVec 5) :
    s.rfRead i r = s.registers r := by
  simp [Cpu.rfRead, h]

theorem registers_quiet {s : Cpu} (h : s.wValid = false) (i : CpuIn) (done : Bool) :
    (s.step i done).registers = s.registers := by
  funext r
  cases hw : i.write <;> simp [Cpu.step, hw, h]

/-- Without a fetch the instruction stays the same and its registers are read again. -/
theorem latched_step {s : Cpu} (hfetch : s.iRead = false) (hretire : s.wValid = false)
    (i : CpuIn) (done : Bool) : (s.step i done).dIw = s.dIw ∧ Latched (s.step i done) := by
  have hsame : (s.step i done).dIw = s.dIw := by simp [Cpu.step, Cpu.fValid, hfetch]
  have hregisters := registers_quiet hretire i done
  refine ⟨hsame, ?_, ?_, ?_⟩
  · rw [hsame]
    rfl
  · rw [hsame, hregisters]
    exact rfRead_quiet hretire i _
  · rw [hsame, hregisters]
    exact rfRead_quiet hretire i _

theorem number_kept {s : Machine} {i : CpuIn} (h : (s.cpu.step i s.done).dIw = s.cpu.dIw) :
    opLcd0 (s.step i).cpu.dIw = opLcd0 s.cpu.dIw ∧ (s.step i).selected = s.selected :=
  ⟨congrArg opLcd0 h, congrArg (fun iw => select0 (iwN iw)) h⟩

theorem idle_step {s : Machine} (h : Idle s)
    (hnone : (s.cpu.rCtrlCustomMulti && s.cpu.rValid) = false) (i : CpuIn) : Idle (s.step i) where
  start := by simp [Machine.step, Cpu.step, h.start, hnone]
  clkEn := by simp [Machine.step, Cpu.step, h.clkEn, hnone]
  translator := by simp [Machine.step, Translator.step, h.clkEn, h.translator]

/-- The operands are copied again while the instruction is in hand. -/
theorem sourced_step {s : Cpu} (hfetch : s.iRead = false) (hretire : s.wValid = false)
    (h : Latched s) (hcustom : opLcd0 s.dIw = true) (i : CpuIn) (done : Bool) :
    Sourced (s.step i done) := by
  have hsame := (latched_step hfetch hretire i done).1
  have hregisters := registers_quiet hretire i done
  constructor
  · rw [hsame, hregisters, ← h.rfA]
    simp [Cpu.step, h.custom, hcustom]
  · rw [hsame, hregisters, ← h.rfB]
    simp [Cpu.step, h.custom, hcustom]

/-- What an instruction owes when it begins. -/
def strobes : Op → List Clock
  | .instr a b => List.replicate 4 ⟨true, a, b⟩ ++ [⟨false, a, b⟩]
  | .pause _ => []

/-- A clock pays one clock of what is owed, or begins to owe what is issued. -/
def Pays (s t : Machine) (st st' : Stage) : Prop :=
  (s.issue = [] ∧ owed s st = s.clock :: owed t st') ∨
    (s.clock.clkEn = false ∧ owed s st = [] ∧ owed t st' = s.issue.flatMap strobes)

theorem issue_none {s : Machine} (h : s.cpu.rValid = false) : s.issue = [] := by
  simp [Machine.issue, h]

theorem pays_quiet {s t : Machine} {st st' : Stage} (hclk : s.cpu.eCiMultiClkEn = false)
    (hissue : s.issue = []) (hst : owed s st = []) (hst' : owed t st' = []) :
    Pays s t st st' :=
  .inr ⟨hclk, hst, by rw [hst', hissue]; rfl⟩

theorem valid_fields {s : Cpu} {a b c d e : Bool} (h : s.valid = (a, b, c, d, e)) :
    s.iRead = a ∧ s.dValid = b ∧ s.rValid = c ∧ s.eValidFromR = d ∧ s.wValid = e := by
  simpa [Cpu.valid] using h

theorem fetch_step {s : Machine} (h : Tracks .fetch s) (i : CpuIn) :
    ∃ st, Tracks st (s.step i) ∧ Pays s (s.step i) .fetch st := by
  obtain ⟨hi, hd, hr, he, hw⟩ := valid_fields h.valid
  have hidle : Idle s := h.stands
  have hnext := idle_step hidle (by simp [hr]) i
  have hissue := issue_none hr
  cases hwait : i.iWaitrequest with
  | true =>
    refine ⟨.fetch, ⟨?_, hnext⟩, pays_quiet hidle.clkEn hissue rfl rfl⟩
    simp [Machine.step, Cpu.step, Cpu.valid, Cpu.fValid, Cpu.eStall, Cpu.eCiMultiStall, Stage.valid,
      hi, hd, hr, he, hw, hwait]
  | false =>
    refine ⟨.decode, ⟨?_, hnext⟩, pays_quiet hidle.clkEn hissue rfl rfl⟩
    simp [Machine.step, Cpu.step, Cpu.valid, Cpu.fValid, Cpu.eStall, Cpu.eCiMultiStall, Stage.valid,
      hi, hd, hr, he, hw, hwait]

theorem decode_step {s : Machine} (h : Tracks .decode s) (i : CpuIn) :
    ∃ st, Tracks st (s.step i) ∧ Pays s (s.step i) .decode st := by
  obtain ⟨hi, hd, hr, he, hw⟩ := valid_fields h.valid
  have hidle : Idle s := h.stands
  have hnext := idle_step hidle (by simp [hr]) i
  refine ⟨.operands, ⟨?_, hnext, (latched_step hi hw i _).2⟩,
    pays_quiet hidle.clkEn (issue_none hr) rfl rfl⟩
  simp [Machine.step, Cpu.step, Cpu.valid, Cpu.fValid, Cpu.eStall, Cpu.eCiMultiStall, Stage.valid,
    hi, hd, hr, he, hw]

/-- Whatever its number, a custom instruction raises the clock enable. -/
theorem operands_custom {s : Machine} (h : Tracks .operands s) (hcustom : opLcd0 s.cpu.dIw = true)
    (i : CpuIn) : (s.step i).cpu.eCiMultiStart = true ∧ (s.step i).cpu.eCiMultiClkEn = true := by
  obtain ⟨-, -, hr, -, -⟩ := valid_fields h.valid
  obtain ⟨hidle, hlatched⟩ := h.stands
  have hctrl : s.cpu.rCtrlCustomMulti = true := by rw [hlatched.custom, hcustom]
  constructor
  · simp [Machine.step, Cpu.step, hidle.start, hctrl, hr]
  · simp [Machine.step, Cpu.step, hidle.clkEn, hctrl, hr]

theorem operands_step {s : Machine} (h : Tracks .operands s) (i : CpuIn) :
    ∃ st, Tracks st (s.step i) ∧ (Addressed s.cpu.dIw → Pays s (s.step i) .operands st) := by
  obtain ⟨hi, hd, hr, he, hw⟩ := valid_fields h.valid
  obtain ⟨hidle, hlatched⟩ := h.stands
  obtain ⟨hsame, hnext⟩ := latched_step hi hw i s.done
  have hvalid : (s.step i).cpu.valid = (false, false, false, true, false) := by
    simp [Machine.step, Cpu.step, Cpu.valid, Cpu.fValid, Cpu.eStall, Cpu.eCiMultiStall,
      hi, hd, hr, he, hw]
  obtain ⟨hop, hselect⟩ := number_kept hsame
  cases hcustom : opLcd0 s.cpu.dIw with
  | true =>
    obtain ⟨hstart, hclk⟩ := operands_custom h hcustom i
    have hcustom' : opLcd0 (s.step i).cpu.dIw = true := hop.trans hcustom
    cases hnumber : s.selected with
    | true =>
      have hsourced := sourced_step hi hw hlatched hcustom i s.done
      have hregisters := registers_quiet hw i s.done
      have hselected : (s.step i).selected = true := hselect.trans hnumber
      refine ⟨.strobe 0, ⟨hvalid, hstart, hclk, ?_, by omega, hnext, ⟨hcustom', hselected⟩,
        hsourced⟩, fun _ => .inr ⟨hidle.clkEn, rfl, ?_⟩⟩
      · simp only [Machine.step, Translator.step, hidle.clkEn, hidle.translator]
        rfl
      · have hsrc1 := hsourced.src1
        have hsrc2 := hsourced.src2
        rw [hsame, hregisters] at hsrc1 hsrc2
        simp [owed, Machine.issue, hr, hcustom, strobes, Machine.step, hsrc1, hsrc2]
    | false =>
      refine ⟨.stuck, ⟨hvalid, hclk, hnext, hcustom', hselect.trans hnumber⟩, fun haddressed => ?_⟩
      exact absurd ((haddressed hcustom).symm.trans hnumber) (by decide)
  | false =>
    have hctrl : s.cpu.rCtrlCustomMulti = false := by rw [hlatched.custom, hcustom]
    refine ⟨.other, ⟨hvalid, idle_step hidle (by simp [hctrl]) i, hnext,
      hop.trans hcustom⟩, fun _ => pays_quiet hidle.clkEn ?_ rfl rfl⟩
    simp [Machine.issue, hcustom]

theorem other_step {s : Machine} (h : Tracks .other s) (i : CpuIn) :
    ∃ st, Tracks st (s.step i) ∧ Pays s (s.step i) .other st := by
  obtain ⟨hi, hd, hr, he, hw⟩ := valid_fields h.valid
  obtain ⟨hidle, hlatched, hcustom⟩ := h.stands
  obtain ⟨hsame, hnext⟩ := latched_step hi hw i s.done
  have hctrl : s.cpu.rCtrlCustomMulti = false := by rw [hlatched.custom, hcustom]
  have hidle' := idle_step hidle (by simp [hr]) i
  have hother : opLcd0 (s.step i).cpu.dIw = false := (number_kept hsame).1.trans hcustom
  cases hstall : i.otherStall with
  | true =>
    refine ⟨.other, ⟨?_, hidle', hnext, hother⟩, pays_quiet hidle.clkEn (issue_none hr) rfl rfl⟩
    simp [Machine.step, Cpu.step, Cpu.valid, Cpu.fValid, Cpu.eStall, Cpu.eCiMultiStall, Stage.valid,
      hi, hd, hr, he, hw, hctrl, hstall]
  | false =>
    refine ⟨.writeback, ⟨?_, hidle', fun hyes => by rw [hother] at hyes; cases hyes⟩,
      pays_quiet hidle.clkEn (issue_none hr) rfl (by simp [owed, hother])⟩
    simp [Machine.step, Cpu.step, Cpu.valid, Cpu.fValid, Cpu.eStall, Cpu.eCiMultiStall, Stage.valid,
      hi, hd, hr, he, hw, hctrl, hstall]

theorem counted_step {k : Nat} (h : k < 3) : (counted k).step true (k == 0) = counted (k + 1) := by
  obtain rfl | rfl | rfl : k = 0 ∨ k = 1 ∨ k = 2 := by omega
  all_goals rfl

theorem counted_done {k : Nat} (h : k < 4) : (counted k).genDone = (k == 3) := by
  obtain rfl | rfl | rfl | rfl : k = 0 ∨ k = 1 ∨ k = 2 ∨ k = 3 := by omega
  all_goals rfl

theorem strobe_step {s : Machine} {k : Nat} (h : Tracks (.strobe k) s) (i : CpuIn) :
    ∃ st, Tracks st (s.step i) ∧ Pays s (s.step i) (.strobe k) st := by
  obtain ⟨hi, hd, hr, he, hw⟩ := valid_fields h.valid
  obtain ⟨hstart, hclk, hcount, hk, hlatched, ⟨hcustom, hselect⟩, hsource⟩ := h.stands
  obtain ⟨hsame, hnext⟩ := latched_step hi hw i s.done
  have hsourced := sourced_step hi hw hlatched hcustom i s.done
  have hregisters := registers_quiet hw i s.done
  have hctrl : s.cpu.rCtrlCustomMulti = true := by rw [hlatched.custom, hcustom]
  have hcustom' : opLcd0 (s.step i).cpu.dIw = true := (number_kept hsame).1.trans hcustom
  have hselect' : (s.step i).selected = true := (number_kept hsame).2.trans hselect
  have hgen : s.translator.genDone = (k == 3) := by rw [hcount, counted_done hk]
  have hdone : s.done = (k == 3) := by rw [Machine.done, hselect, hgen, Bool.true_and]
  have hsrc1 : (s.step i).cpu.eSrc1 = s.cpu.eSrc1 := by
    rw [hsource.src1, ← hregisters, ← hsame]
    exact hsourced.src1
  have hsrc2 : (s.step i).cpu.eSrc2 = s.cpu.eSrc2 := by
    rw [hsource.src2, ← hregisters, ← hsame]
    exact hsourced.src2
  have hclock : s.clock = ⟨true, s.cpu.eSrc1, s.cpu.eSrc2⟩ := by rw [Machine.clock, hclk]
  by_cases hlast : k = 3
  · subst hlast
    refine ⟨.writeback, ⟨?_, ⟨?_, ?_, ?_⟩, fun _ => hsourced⟩, .inl ⟨issue_none hr, ?_⟩⟩
    · simp [Machine.step, Cpu.step, Cpu.valid, Cpu.fValid, Cpu.eStall, Cpu.eCiMultiStall,
        Stage.valid, hi, hd, hr, he, hw, hctrl, hdone]
    · simp [Machine.step, Cpu.step, hstart, hr]
    · simp [Machine.step, Cpu.step, hclk, hdone]
    · simp [Machine.step, Translator.step, hclk, hgen]
    · simp [owed, hcustom', hclock, hsrc1, hsrc2]
  · have hmore : (k == 3) = false := beq_eq_false_iff_ne.mpr hlast
    obtain ⟨n, hn⟩ : ∃ n, 4 - k = n + 1 := ⟨3 - k, by omega⟩
    have hrest : 4 - (k + 1) = n := by omega
    refine ⟨.strobe (k + 1), ⟨?_, ?_, ?_, ?_, by omega, hnext, ⟨hcustom', hselect'⟩, hsourced⟩,
      .inl ⟨issue_none hr, ?_⟩⟩
    · simp [Machine.step, Cpu.step, Cpu.valid, Cpu.fValid, Cpu.eStall, Cpu.eCiMultiStall,
        Stage.valid, hi, hd, hr, he, hw, hctrl, hdone, hmore]
    · simp [Machine.step, Cpu.step, hr]
    · simp [Machine.step, Cpu.step, hclk, hdone, hmore]
    · rw [Machine.step, hcount, hclk, hstart, hselect, Bool.true_and]
      exact counted_step (by omega)
    · simp [owed, hclock, hsrc1, hsrc2, hn, hrest, List.replicate_succ]

/-- A custom instruction with another number is not done, and keeps the clock enable up. -/
theorem stuck_step {s : Machine} (h : Tracks .stuck s) (i : CpuIn) : Tracks .stuck (s.step i) := by
  obtain ⟨hi, hd, hr, he, hw⟩ := valid_fields h.valid
  obtain ⟨hclk, hlatched, hcustom, hselect⟩ := h.stands
  obtain ⟨hsame, hnext⟩ := latched_step hi hw i s.done
  have hctrl : s.cpu.rCtrlCustomMulti = true := by rw [hlatched.custom, hcustom]
  have hdone : s.done = false := by rw [Machine.done, hselect, Bool.false_and]
  obtain ⟨hop, hnumber⟩ := number_kept hsame
  refine ⟨?_, ?_, hnext, hop.trans hcustom, hnumber.trans hselect⟩
  · simp [Machine.step, Cpu.step, Cpu.valid, Cpu.fValid, Cpu.eStall, Cpu.eCiMultiStall,
      Stage.valid, hi, hd, hr, he, hw, hctrl, hdone]
  · simp [Machine.step, Cpu.step, hclk, hdone]

theorem writeback_step {s : Machine} (h : Tracks .writeback s) (i : CpuIn) :
    ∃ st, Tracks st (s.step i) ∧ Pays s (s.step i) .writeback st := by
  obtain ⟨hi, hd, hr, he, hw⟩ := valid_fields h.valid
  obtain ⟨hidle, -⟩ := h.stands
  have hclk := hidle.clkEn
  refine ⟨.fetch, ⟨?_, idle_step hidle (by simp [hr]) i⟩, ?_⟩
  · simp [Machine.step, Cpu.step, Cpu.valid, Cpu.fValid, Cpu.eStall, Cpu.eCiMultiStall, Stage.valid,
      hi, hd, hr, he, hw]
  · cases hcustom : opLcd0 s.cpu.dIw with
    | true => exact .inl ⟨issue_none hr, by simp [owed, hcustom, Machine.clock, hclk]⟩
    | false => exact pays_quiet hclk (issue_none hr) (by simp [owed, hcustom]) rfl

theorem tracks_step {s : Machine} {st : Stage} (h : Tracks st s) (i : CpuIn) :
    ∃ st', Tracks st' (s.step i) ∧ (Addressed s.cpu.dIw → Pays s (s.step i) st st') := by
  have hnoted : ∀ {st : Stage}, (∃ st', Tracks st' (s.step i) ∧ Pays s (s.step i) st st') →
      ∃ st', Tracks st' (s.step i) ∧ (Addressed s.cpu.dIw → Pays s (s.step i) st st') :=
    fun ⟨st', htracks, hpays⟩ => ⟨st', htracks, fun _ => hpays⟩
  cases st with
  | fetch => exact hnoted (fetch_step h i)
  | decode => exact hnoted (decode_step h i)
  | operands => exact operands_step h i
  | other => exact hnoted (other_step h i)
  | strobe k => exact hnoted (strobe_step h i)
  | stuck =>
    obtain ⟨-, -, hcustom, hselect⟩ := h.stands
    refine ⟨.stuck, stuck_step h i, fun haddressed => ?_⟩
    exact absurd ((haddressed hcustom).symm.trans hselect) (by decide)
  | writeback => exact hnoted (writeback_step h i)

/-- The word in hand is the last one fetched. -/
theorem addressed_step {s : Machine} {i : CpuIn} (h : Addressed s.cpu.dIw)
    (hi : ∀ iw ∈ s.fetch i, Addressed iw) : Addressed (s.step i).cpu.dIw := by
  simp only [Machine.step, Cpu.step]
  split
  next hfetch => exact hi i.fIw (by simp [Machine.fetch, hfetch])
  next => exact h

/-! ## Runs -/

/-- Without pauses in between, traces follow one another. -/
theorem carries_append {t : Nat} {ops more : List Op} {is js : List (Nat × Clock)}
    (h : Carries t ops is) (hops : ∀ op ∈ ops, ∃ a b, op = .instr a b)
    (hmore : Carries t more js) : Carries t (ops ++ more) (is ++ js) := by
  induction h with
  | done t => exact hmore
  | idle i hi _ ih => exact .idle i hi (ih hops hmore)
  | pause us _ _ =>
    obtain ⟨a, b, hab⟩ := hops (.pause us) (by simp)
    cases hab
  | instr a b strobe hne hs _ ih =>
    rw [List.append_assoc]
    exact .instr a b strobe hne hs (ih (fun op hop => hops op (by simp [hop])) hmore)

theorem carries_strobes (t : Nat) {ops : List Op} (hops : ∀ op ∈ ops, ∃ a b, op = .instr a b) :
    Carries t ops ((ops.flatMap strobes).map (t, ·)) := by
  induction ops with
  | nil => exact .done t
  | cons op ops ih =>
    obtain ⟨a, b, rfl⟩ := hops op (by simp)
    have hrest := ih fun op hop => hops op (by simp [hop])
    have hone := Carries.instr a b (List.replicate 4 ⟨true, a, b⟩) (by simp) (by simp) hrest
    simpa [strobes] using hone

theorem instr_issue (s : Machine) : ∀ op ∈ s.issue, ∃ a b, op = .instr a b := by
  intro op hop
  rw [Machine.issue] at hop
  split at hop
  · exact ⟨_, _, List.mem_singleton.mp hop⟩
  · cases hop

/-- Whatever is still owed completes the trace to one that carries out what was issued. -/
theorem run_carries {s : Machine} {st : Stage} (h : Tracks st s) {pre : List Clock}
    {ops : List Op} (hops : ∀ op ∈ ops, ∃ a b, op = .instr a b)
    (hpre : Carries 0 ops ((pre ++ owed s st).map (0, ·))) {is : List CpuIn}
    (hword : Addressed s.cpu.dIw) (hwords : ∀ iw ∈ fetched s is, Addressed iw) :
    ∃ st', Tracks st' (run s is) ∧
      Carries 0 (ops ++ executed s is)
        ((pre ++ trace s is ++ owed (run s is) st').map (0, ·)) := by
  induction is generalizing s st pre ops with
  | nil => exact ⟨st, h, by simpa [executed, trace] using hpre⟩
  | cons i is ih =>
    obtain ⟨st₁, hnext, hpays⟩ := tracks_step h i
    obtain ⟨hfirst, hrest⟩ := List.forall_mem_append.mp hwords
    have hstep : Carries 0 (ops ++ s.issue)
        ((pre ++ [s.clock] ++ owed (s.step i) st₁).map (0, ·)) := by
      obtain ⟨hnone, howed⟩ | ⟨hclk, howed, hnew⟩ := hpays hword
      · rw [hnone, List.append_nil]
        simpa [howed] using hpre
      · rw [howed, List.append_nil] at hpre
        have hbegin := Carries.idle s.clock hclk (carries_strobes 0 (instr_issue s))
        rw [← hnew] at hbegin
        simpa using carries_append hpre hops hbegin
    have hall : ∀ op ∈ ops ++ s.issue, ∃ a b, op = .instr a b := by
      intro op hop
      obtain hop | hop := List.mem_append.mp hop
      · exact hops op hop
      · exact instr_issue s op hop
    obtain ⟨st', htracks, hcarries⟩ :=
      ih hnext hall hstep (addressed_step hword hfirst) hrest
    refine ⟨st', htracks, ?_⟩
    simpa [executed, trace, List.append_assoc] using hcarries

/-- The processor after reset, with any contents of its registers, and the lcd module. -/
def powerUp (registers : BitVec 5 → Word) (r : Regs) : Machine := ⟨.reset registers, .reset, r⟩

theorem tracks_powerUp (registers : BitVec 5 → Word) (r : Regs) :
    Tracks .fetch (powerUp registers r) := ⟨rfl, rfl, rfl, rfl⟩

theorem run_lcd (s : Machine) (is : List CpuIn) :
    (run s is).lcd = LcdModule.run s.lcd (trace s is) := by
  induction is generalizing s with
  | nil => rfl
  | cons i is ih =>
    rw [run_cons, ih]
    rfl

theorem length_owed {s : Machine} (st : Stage) : (owed s st).length ≤ 5 := by
  cases st with
  | strobe k =>
    simp only [owed, List.length_append, List.length_replicate, List.length_singleton]
    omega
  | writeback =>
    simp only [owed]
    split <;> simp
  | _ => simp [owed]

theorem tracks_run {s : Machine} {st : Stage} (h : Tracks st s) (is : List CpuIn) :
    ∃ st', Tracks st' (run s is) := by
  induction is generalizing s st with
  | nil => exact ⟨st, h⟩
  | cons i is ih =>
    obtain ⟨st', hnext, -⟩ := tracks_step h i
    exact ih hnext

/-- In the operand stage a custom instruction with another number is about to be stuck. -/
theorem foreign_stuck {s : Machine} {st : Stage} (h : Tracks st s) (hforeign : s.foreign = true)
    (i : CpuIn) : Tracks .stuck (s.step i) := by
  obtain ⟨⟨hr, hcustom⟩, hselect⟩ : (s.cpu.rValid = true ∧ opLcd0 s.cpu.dIw = true) ∧
      s.selected = false := by
    simpa [Machine.foreign] using hforeign
  have hstage : st = .operands := by
    have hvalid := h.valid
    rw [Cpu.valid, hr] at hvalid
    cases st <;> simp [Stage.valid] at hvalid
    rfl
  subst hstage
  obtain ⟨hi, hd, -, he, hw⟩ := valid_fields h.valid
  obtain ⟨hsame, hnext⟩ := latched_step hi hw i s.done
  have hvalid : (s.step i).cpu.valid = Stage.stuck.valid := by
    simp [Machine.step, Cpu.step, Cpu.valid, Cpu.fValid, Cpu.eStall, Cpu.eCiMultiStall,
      Stage.valid, hi, hd, hr, he, hw]
  obtain ⟨hop, hnumber⟩ := number_kept hsame
  exact ⟨hvalid, (operands_custom h hcustom i).2, hnext, hop.trans hcustom, hnumber.trans hselect⟩

/-- What follows is one strobe without an end, and nothing else is executed. -/
theorem stuck_run {s : Machine} (h : Tracks .stuck s) (is : List CpuIn) :
    Tracks .stuck (run s is) ∧ executed s is = [] ∧ ∀ c ∈ trace s is, c.clkEn = true := by
  induction is generalizing s with
  | nil => exact ⟨h, rfl, by simp [trace]⟩
  | cons i is ih =>
    obtain ⟨hlast, hnone, hhigh⟩ := ih (stuck_step h i)
    obtain ⟨-, -, hr, -, -⟩ := valid_fields h.valid
    refine ⟨hlast, ?_, ?_⟩
    · rw [executed, issue_none hr, hnone]
      rfl
    · rw [trace]
      exact List.forall_mem_cons.mpr ⟨h.stands.1, hhigh⟩

theorem carries_powerUp (registers : BitVec 5 → Word) (r : Regs) {is : List CpuIn}
    (hwords : ∀ iw ∈ fetched (powerUp registers r) is, Addressed iw) :
    ∃ st, Tracks st (run (powerUp registers r) is) ∧
      Carries 0 (executed (powerUp registers r) is) ((trace (powerUp registers r) is ++
        owed (run (powerUp registers r) is) st).map (0, ·)) := by
  have hfirst :
      Carries 0 [] ((([] : List Clock) ++ owed (powerUp registers r) .fetch).map (0, ·)) := .done 0
  have hrun :=
    run_carries (tracks_powerUp registers r) (by simp) hfirst (fun h => by cases h) hwords
  rwa [List.nil_append, List.nil_append] at hrun

/-- A processor that fetches owes nothing. -/
theorem owed_fetch {s : Machine} {st : Stage} (h : Tracks st s) (hfetch : s.cpu.iRead = true) :
    owed s st = [] := by
  have hvalid := h.valid
  rw [Cpu.valid, hfetch] at hvalid
  cases st <;> simp [Stage.valid] at hvalid
  rfl

/-- While all custom instructions fetched have the number of the module, those that are executed
reach it in order, each with the registers it names: at most five clocks are still to come, and
while it fetches the display has taken all of them but the last, which the module holds. With the
first one of another number the processor stops: it keeps the clock enable up, fetches no more and
executes nothing else. -/
theorem executed_delivered (registers : BitVec 5 → Word) {r : Regs} (hr : r.state = false)
    (is : List CpuIn) :
    ((∀ iw ∈ fetched (powerUp registers r) is, Addressed iw) →
      (∃ rest, rest.length ≤ 5 ∧ Carries 0 (executed (powerUp registers r) is)
        ((trace (powerUp registers r) is ++ rest).map (0, ·))) ∧
      ((run (powerUp registers r) is).cpu.iRead = true →
        falls r (trace (powerUp registers r) is) =
          ((held r).toList ++
            (issued 0 (executed (powerUp registers r) is)).map Prod.snd).dropLast ∧
        held (run (powerUp registers r) is).lcd =
          ((issued 0 (executed (powerUp registers r) is)).map Prod.snd).getLast?.or (held r))) ∧
    ∀ early i late, is = early ++ i :: late → (run (powerUp registers r) early).foreign = true →
      (run (powerUp registers r) is).cpu.iRead = false ∧
      executed ((run (powerUp registers r) early).step i) late = [] ∧
      ∀ c ∈ trace ((run (powerUp registers r) early).step i) late, c.clkEn = true := by
  constructor
  · intro hwords
    obtain ⟨st, htracks, hcarries⟩ := carries_powerUp registers r hwords
    refine ⟨⟨owed _ st, length_owed st, hcarries⟩, fun hfetch => ?_⟩
    rw [owed_fetch htracks hfetch, List.append_nil] at hcarries
    have hfalls := carries_falls hcarries hr
    have hmap : ((trace (powerUp registers r) is).map
        ((0, ·) : Clock → Nat × Clock)).map Prod.snd = trace (powerUp registers r) is := by
      simp [Function.comp_def]
    rw [hmap] at hfalls
    rw [run_lcd]
    exact hfalls
  · rintro early i late rfl hforeign
    obtain ⟨st, htracks⟩ := tracks_run (tracks_powerUp registers r) early
    obtain ⟨hlast, hnone, hhigh⟩ := stuck_run (foreign_stuck htracks hforeign i) late
    refine ⟨?_, hnone, hhigh⟩
    rw [run, List.foldl_append]
    exact (valid_fields hlast.valid).1

/-- One custom instruction on registers 4 and 5, each of which holds its own number. -/
def customOnce (word : Word) : List CpuIn := List.replicate 8 ⟨false, word, true, 0, 0, none, 0⟩

theorem executed_delivered_once :
    held (run (powerUp (·.setWidth 32) LcdModule.powerUp) (customOnce 0x21400032)).lcd =
      some ⟨false, 5⟩ ∧
    (run (powerUp (·.setWidth 32) LcdModule.powerUp) (customOnce 0x21400072)).cpu.iRead =
      false := by
  constructor
  · have hfetched : fetched (powerUp (·.setWidth 32) LcdModule.powerUp) (customOnce 0x21400032) =
        [0x21400032] := by
      decide +kernel
    have hzero := (executed_delivered (·.setWidth 32) (r := LcdModule.powerUp) rfl
      (customOnce 0x21400032)).1 (hfetched ▸ List.forall_mem_singleton.mpr (by decide))
    exact (hzero.2 (by decide)).2.trans (by decide)
  · have hone := (executed_delivered (·.setWidth 32) (r := LcdModule.powerUp) rfl
      (customOnce 0x21400072)).2 ((customOnce 0x21400072).take 2) _ _ rfl (by decide)
    exact hone.1

end CustomInstruction
