import Mathlib.Tactic.IntervalCases
import NiosMenu.SerialLine
import NiosMenu.Uart

/-!
# What the transmitter puts on the line

The registers of the transmitter behave like a wire that owes a fixed list of levels;
a byte written while the transmitter is ready adds one frame to it. So the line carries
one frame for each byte, in order, with a start bit two clocks longer than the others.
-/
namespace UartTx

open Firmware SerialLine Uart

/-- Where the byte stands that has left the data register. -/
inductive Stage where
  | quiet
  | loading
  | loaded (b : Byte)
  | shifting (b : Byte) (bit clocks : Nat)
  deriving DecidableEq, Repr

/-- The byte still held in the data register, and the stage of the one before it. -/
structure Wire where
  held : Option Byte
  stage : Stage
  deriving DecidableEq, Repr

/-- The clocks of the ten bits of a frame. -/
def bitTimes (divisor : Divisor) : List Nat :=
  (divisor.toNat + 3) :: List.replicate 9 (divisor.toNat + 1)

/-- A byte waits for two clocks before its frame begins. -/
def queued (divisor : Divisor) (b : Byte) : List Bool :=
  true :: true :: frameWave (bitTimes divisor) b

/-- The rest of a frame from a bit on that has some clocks left. -/
def remaining (divisor : Divisor) (b : Byte) (bit clocks : Nat) : List Bool :=
  List.replicate clocks ((frameBits b).getD bit true) ++
    wave (((frameBits b).drop (bit + 1)).zip (List.replicate (9 - bit) (divisor.toNat + 1)))

/-- What the byte in the data register owes. -/
def waiting (divisor : Divisor) (held : Option Byte) : List Bool :=
  (held.map (queued divisor)).getD []

/-- The levels to come if nothing more is written. -/
def Wire.owed (divisor : Divisor) (a : Wire) : List Bool :=
  match a.stage with
  | .quiet => waiting divisor a.held
  | .loading => (waiting divisor a.held).tail
  | .loaded b => frameWave (bitTimes divisor) b ++ waiting divisor a.held
  | .shifting b bit clocks => remaining divisor b bit clocks ++ waiting divisor a.held

/-- The stage after one clock of a bit. -/
def shifted (divisor : Divisor) (b : Byte) (bit clocks : Nat) : Stage :=
  if 1 < clocks then .shifting b bit (clocks - 1)
  else if bit < 9 then .shifting b (bit + 1) (divisor.toNat + 1)
  else .quiet

def Wire.next (divisor : Divisor) (a : Wire) (written : Option Byte) : Wire :=
  match a.stage with
  | .quiet => ⟨a.held.or written, if a.held.isSome then .loading else .quiet⟩
  | .loading => ⟨none, .loaded (a.held.getD 0)⟩
  | .loaded b => ⟨written, .shifting b 0 (divisor.toNat + 2)⟩
  | .shifting b bit clocks => ⟨a.held.or written, shifted divisor b bit clocks⟩

/-- The level that the shift register asks for. -/
def level (s : Tx) : Bool := if s.shiftDone then true else s.txShiftRegister.getLsbD 0

/-- The clocks left of a bit, as the baud counter has them. -/
def Counts (divisor : Divisor) (s : Tx) (clocks : Nat) : Prop :=
  (s.baudClkEn = true ∧ clocks = 1 ∧ s.baudRateCounter = divisor) ∨
    (s.baudClkEn = false ∧ clocks = s.baudRateCounter.toNat + 2)

theorem counts_pos {divisor : Divisor} {s : Tx} {clocks : Nat} (h : Counts divisor s clocks) :
    0 < clocks := by
  obtain ⟨-, rfl, -⟩ | ⟨-, rfl⟩ := h <;> omega

/-- The registers of the transmitter and the data register, as they stand for a wire. -/
structure Tracks (divisor : Divisor) (a : Wire) (s : Tx) (txData : Byte) : Prop where
  ready : s.txReady = a.held.isNone
  data : ∀ b, a.held = some b → txData = b
  stage : match a.stage with
    | .quiet => s.doLoadShifter = false ∧ s.txShiftRegister = 0
    | .loading => s.doLoadShifter = true ∧ s.txShiftRegister = 0 ∧ a.held.isSome
    | .loaded b => s.doLoadShifter = true ∧ s.txShiftRegister = txLoadVal b ∧ txData = b ∧
        a.held = none ∧ s.baudRateCounter = divisor
    | .shifting b bit clocks => s.doLoadShifter = false ∧
        s.txShiftRegister = txLoadVal b >>> bit ∧ bit < 10 ∧ Counts divisor s clocks ∧
        clocks ≤ divisor.toNat + 2

/-! ## The wire -/

theorem frameBits_split (b : Byte) {k : Nat} (h : k < 10) :
    (frameBits b).drop k = (frameBits b).getD k true :: (frameBits b).drop (k + 1) := by
  have hlen : k < (frameBits b).length := by simpa using h
  rw [List.drop_eq_getElem_cons hlen, List.getD_eq_getElem?_getD, List.getElem?_eq_getElem hlen,
    Option.getD_some]

theorem remaining_succ (divisor : Divisor) (b : Byte) (bit clocks : Nat) :
    remaining divisor b bit (clocks + 1) =
      (frameBits b).getD bit true :: remaining divisor b bit clocks := by
  rw [remaining, List.replicate_succ, List.cons_append]
  rfl

theorem remaining_zero (divisor : Divisor) (b : Byte) {bit : Nat} (h : bit < 9) :
    remaining divisor b bit 0 = remaining divisor b (bit + 1) (divisor.toNat + 1) := by
  obtain ⟨n, hn⟩ : ∃ n, 9 - bit = n + 1 := ⟨8 - bit, by omega⟩
  have hrest : 9 - (bit + 1) = n := by omega
  rw [remaining, remaining, hn, hrest, frameBits_split b (by omega), List.replicate_succ,
    List.zip_cons_cons, wave_cons]
  rfl

theorem remaining_last (divisor : Divisor) (b : Byte) : remaining divisor b 9 0 = [] := by
  simp [remaining]

/-- The start bit is two clocks longer than the others. -/
theorem frameWave_start (divisor : Divisor) (b : Byte) :
    frameWave (bitTimes divisor) b = false :: remaining divisor b 0 (divisor.toNat + 2) := by
  rfl

theorem waiting_or (divisor : Divisor) {held written : Option Byte}
    (hfree : written.isSome → held = none) :
    waiting divisor (held.or written) = waiting divisor held ++ waiting divisor written := by
  cases written with
  | none => cases held <;> simp [waiting]
  | some c =>
    rw [hfree rfl]
    rfl

/-- One clock of a bit takes one level off the frame. -/
theorem owed_shifted (divisor : Divisor) (b : Byte) {bit clocks : Nat} (hbit : bit < 10)
    (hclocks : 0 < clocks) (held : Option Byte) :
    (⟨held, shifted divisor b bit clocks⟩ : Wire).owed divisor =
      (remaining divisor b bit clocks).tail ++ waiting divisor held := by
  obtain ⟨n, rfl⟩ : ∃ n, clocks = n + 1 := ⟨clocks - 1, by omega⟩
  rw [remaining_succ, List.tail_cons, shifted, Nat.add_sub_cancel]
  split_ifs with hn hlast
  · rfl
  · obtain rfl : n = 0 := by omega
    rw [remaining_zero divisor b hlast]
    rfl
  · obtain rfl : n = 0 := by omega
    obtain rfl : bit = 9 := by omega
    rw [remaining_last]
    rfl

/-- The wire after one more clock: one level less is owed, and what is written is owed at
the end. -/
theorem owed_next {divisor : Divisor} {a : Wire} {s : Tx} {txData : Byte}
    (h : Tracks divisor a s txData) {written : Option Byte}
    (hfree : written.isSome → a.held = none) :
    (a.next divisor written).owed divisor = (a.owed divisor).tail ++ waiting divisor written := by
  obtain ⟨held, stage⟩ := a
  have hstage := h.stage
  have hboth := waiting_or divisor hfree
  cases stage with
  | quiet =>
    cases held with
    | none => cases written <;> rfl
    | some b =>
      cases written with
      | none => simp [Wire.owed, Wire.next, waiting]
      | some c => cases hfree rfl
  | loading =>
    cases held with
    | none => cases hstage.2.2
    | some b =>
      cases written with
      | none => simp [Wire.owed, Wire.next, waiting, queued]
      | some c => cases hfree rfl
  | loaded b =>
    obtain rfl : held = none := hstage.2.2.2.1
    simp [Wire.owed, Wire.next, waiting, frameWave_start]
  | shifting b bit clocks =>
    obtain ⟨-, -, hbit, hcounts, -⟩ := hstage
    have hclocks := counts_pos hcounts
    obtain ⟨n, rfl⟩ : ∃ n, clocks = n + 1 := ⟨clocks - 1, by omega⟩
    have hrest := owed_shifted divisor b hbit hclocks (held.or written)
    have howed : (⟨held, .shifting b bit (n + 1)⟩ : Wire).owed divisor =
        (frameBits b).getD bit true :: (remaining divisor b bit n ++ waiting divisor held) := by
      simp only [Wire.owed, remaining_succ, List.cons_append]
    rw [hboth, remaining_succ, List.tail_cons, ← List.append_assoc] at hrest
    rw [Wire.next, hrest, howed, List.tail_cons]

/-! ## The registers -/

theorem getLsbD_txLoadVal (b : Byte) {i : Nat} (h : i < 10) :
    (txLoadVal b).getLsbD i = (frameBits b).getD i true := by
  have hparts : (txLoadVal b).getLsbD i = (1#1 ++ b ++ 0#1 : BitVec (1 + 8 + 1)).getLsbD i := rfl
  rw [hparts, BitVec.getLsbD_append, BitVec.getLsbD_append]
  interval_cases i <;> simp [frameBits, List.range_succ]

theorem getLsbD_shifted (b : Byte) {k : Nat} (h : k < 10) :
    (txLoadVal b >>> k).getLsbD 0 = (frameBits b).getD k true := by
  rw [BitVec.getLsbD_ushiftRight, Nat.add_zero, getLsbD_txLoadVal b h]

/-- The stop bit keeps the shift register from being empty before it has been sent. -/
theorem shifted_ne_zero (b : Byte) {k : Nat} (h : k < 10) : txLoadVal b >>> k ≠ 0 := by
  intro hzero
  have hstop : (txLoadVal b >>> k).getLsbD (9 - k) = true := by
    have hsum : k + (9 - k) = 9 := by omega
    rw [BitVec.getLsbD_ushiftRight, hsum, getLsbD_txLoadVal b (by omega)]
    simp [frameBits, List.range_succ]
  rw [hzero] at hstop
  simp at hstop

theorem shifted_last (b : Byte) : txLoadVal b >>> 9 >>> 1 = 0 := by
  rw [← BitVec.shiftRight_add]
  apply BitVec.eq_of_getLsbD_eq
  intro i hi
  rw [BitVec.getLsbD_ushiftRight, BitVec.getLsbD_of_ge _ _ (by omega)]
  simp

theorem level_empty {s : Tx} (h : s.txShiftRegister = 0) : level s = true := by
  simp [level, Tx.shiftDone, h]

theorem level_shifted {s : Tx} {b : Byte} {k : Nat} (hk : k < 10)
    (h : s.txShiftRegister = txLoadVal b >>> k) : level s = (frameBits b).getD k true := by
  have hbusy : s.shiftDone = false := by
    rw [Tx.shiftDone, h]
    exact beq_eq_false_iff_ne.mpr (shifted_ne_zero b hk)
  rw [level, hbusy, if_neg Bool.false_ne_true, h, getLsbD_shifted b hk]

theorem level_owed {divisor : Divisor} {a : Wire} {s : Tx} {txData : Byte}
    (h : Tracks divisor a s txData) : level s = (a.owed divisor).headD true := by
  obtain ⟨held, stage⟩ := a
  have hstage := h.stage
  cases stage with
  | quiet =>
    rw [level_empty hstage.2]
    cases held <;> rfl
  | loading =>
    rw [level_empty hstage.2.1]
    cases held <;> rfl
  | loaded b =>
    have hload : s.txShiftRegister = txLoadVal b >>> 0 := hstage.2.1
    rw [level_shifted (by omega) hload]
    rfl
  | shifting b bit clocks =>
    obtain ⟨-, hshift, hbit, hcounts, -⟩ := hstage
    have hclocks := counts_pos hcounts
    obtain ⟨n, rfl⟩ : ∃ n, clocks = n + 1 := ⟨clocks - 1, by omega⟩
    simp only [level_shifted hbit hshift, Wire.owed, remaining_succ, List.cons_append,
      List.headD_cons]

theorem ready_next {divisor : Divisor} {s : Tx} {i : TxIn} {written : Option Byte}
    (hw : i.txWrStrobeOnset = written.isSome) (hload : s.doLoadShifter = false) {held : Option Byte}
    (hready : s.txReady = held.isNone) :
    (s.step divisor i).txReady = (held.or written).isNone := by
  simp only [Tx.step, hw, hload, hready, Bool.false_eq_true, if_false]
  cases held <;> cases written <;> rfl

theorem ready_loaded {divisor : Divisor} {s : Tx} {i : TxIn} {written : Option Byte}
    (hw : i.txWrStrobeOnset = written.isSome) (hload : s.doLoadShifter = true) :
    (s.step divisor i).txReady = written.isNone := by
  simp only [Tx.step, hw, hload, if_true]
  cases written <;> rfl

theorem data_next {held written : Option Byte} {txData : Byte}
    (hdata : ∀ b, held = some b → txData = b) (hfree : written.isSome → held = none) :
    ∀ b, held.or written = some b → written.getD txData = b := by
  intro b hb
  cases written with
  | none => exact hdata b (by simpa using hb)
  | some c =>
    rw [hfree rfl] at hb
    exact Option.some.inj hb

theorem toNat_pred {c : Divisor} (h : c ≠ 0) : (c - 1).toNat + 1 = c.toNat := by
  have hpos : c.toNat ≠ 0 := fun hzero => h (BitVec.eq_of_toNat_eq hzero)
  bv_omega

/-- The baud counter inside a bit: one clock less, or the next bit. -/
theorem counts_next {divisor : Divisor} (hdiv : divisor ≠ 0) {s : Tx} {clocks : Nat}
    (hcount : Counts divisor s clocks) (hload : s.doLoadShifter = false) (i : TxIn) :
    Counts divisor (s.step divisor i) (if 1 < clocks then clocks - 1 else divisor.toNat + 1) := by
  obtain ⟨-, rfl, hfull⟩ | ⟨-, rfl⟩ := hcount
  · have hpred := toNat_pred hdiv
    refine .inr ⟨?_, ?_⟩
    · simpa [Tx.step, hfull] using hdiv
    · have hnext : (s.step divisor i).baudRateCounter = divisor - 1 := by
        have hzero : (divisor == 0) = false := beq_eq_false_iff_ne.mpr hdiv
        simp only [Tx.step, hfull, hload, hzero, Bool.or_false, Bool.false_eq_true, if_false]
      rw [hnext, if_neg (by omega)]
      omega
  · by_cases hzero : s.baudRateCounter = 0
    · refine .inl ⟨by simp [Tx.step, hzero], ?_, by simp [Tx.step, hzero]⟩
      simp [hzero]
    · have hpred := toNat_pred hzero
      refine .inr ⟨by simpa [Tx.step] using hzero, ?_⟩
      have hnext : (s.step divisor i).baudRateCounter = s.baudRateCounter - 1 := by
        have hbusy : (s.baudRateCounter == 0) = false := beq_eq_false_iff_ne.mpr hzero
        simp only [Tx.step, hload, hbusy, Bool.or_false, Bool.false_eq_true, if_false]
      rw [hnext, if_pos (by omega)]
      omega

/-- One clock of the registers is one clock of the wire. -/
theorem tracks_next {divisor : Divisor} (hdiv : divisor ≠ 0) {a : Wire} {s : Tx} {txData : Byte}
    (h : Tracks divisor a s txData) {i : TxIn} (hi : i.txData = txData) {written : Option Byte}
    (hw : i.txWrStrobeOnset = written.isSome) (hfree : written.isSome → a.held = none) :
    Tracks divisor (a.next divisor written) (s.step divisor i) (written.getD txData) := by
  obtain ⟨held, stage⟩ := a
  obtain ⟨hready, hdata, hstage⟩ := h
  have hkeep := data_next hdata hfree
  cases stage with
  | quiet =>
    obtain ⟨hload, hempty⟩ := hstage
    have hdone : s.shiftDone = true := by simp [Tx.shiftDone, hempty]
    have hshift : (s.step divisor i).txShiftRegister = 0 := by
      simp [Tx.step, Tx.doShift, hload, hdone, hempty]
    have hnext : (s.step divisor i).doLoadShifter = held.isSome := by
      simp [Tx.step, hready, hdone]
    refine ⟨ready_next hw hload hready, hkeep, ?_⟩
    cases held with
    | none => exact ⟨hnext, hshift⟩
    | some b => exact ⟨hnext, hshift, rfl⟩
  | loading =>
    obtain ⟨hload, hempty, hheld⟩ := hstage
    obtain ⟨b, rfl⟩ := Option.isSome_iff_exists.mp hheld
    obtain rfl : written = none := by
      cases written with
      | none => rfl
      | some c => cases hfree rfl
    have hdone : s.shiftDone = true := by simp [Tx.shiftDone, hempty]
    have hb : txData = b := hdata b rfl
    refine ⟨ready_loaded hw hload, fun c hc => (by cases hc), ?_⟩
    refine ⟨?_, ?_, hb, rfl, ?_⟩
    · simp [Tx.step, hready, hdone]
    · simp [Tx.step, hload, hi, hb]
    · simp [Tx.step, hload]
  | loaded b =>
    obtain ⟨hload, -, hb, rfl, hcount⟩ := hstage
    have hnext : (s.step divisor i).txShiftRegister = txLoadVal b >>> 0 := by
      simp [Tx.step, hload, hi, hb]
    refine ⟨ready_loaded hw hload, hkeep, ?_, hnext, by omega, .inr ⟨?_, ?_⟩, Nat.le_refl _⟩
    · simp [Tx.step, hready]
    · simpa [Tx.step, hcount] using hdiv
    · simp [Tx.step, hload]
  | shifting b bit clocks =>
    obtain ⟨hload, hshift, hbit, hcounts, hmost⟩ := hstage
    have hdone : s.shiftDone = false := by
      rw [Tx.shiftDone, hshift]
      exact beq_eq_false_iff_ne.mpr (shifted_ne_zero b hbit)
    have hnext : (s.step divisor i).doLoadShifter = false := by simp [Tx.step, hdone]
    have hcount := counts_next hdiv hcounts hload i
    refine ⟨ready_next hw hload hready, hkeep, ?_⟩
    obtain ⟨hben, rfl, -⟩ | ⟨hben, hleft⟩ := hcounts
    · have hmove : (s.step divisor i).txShiftRegister = txLoadVal b >>> (bit + 1) := by
        simp [Tx.step, Tx.doShift, hload, hdone, hben, hshift, BitVec.shiftRight_add]
      by_cases hlast : bit < 9
      · simp only [Wire.next, shifted, Nat.lt_irrefl, if_false, hlast, if_true]
        exact ⟨hnext, hmove, by omega, hcount, by omega⟩
      · obtain rfl : bit = 9 := by omega
        rw [BitVec.shiftRight_add, shifted_last] at hmove
        exact ⟨hnext, hmove⟩
    · have hstay : (s.step divisor i).txShiftRegister = txLoadVal b >>> bit := by
        simp [Tx.step, Tx.doShift, hload, hben, hshift]
      have hmore : 1 < clocks := by omega
      rw [if_pos hmore] at hcount
      simp only [Wire.next, shifted, hmore, if_true]
      exact ⟨hnext, hstay, hbit, hcount, by omega⟩

/-! ## On the bus -/

/-- The levels that the shift register asks for along a run. -/
def levels (divisor : Divisor) : Slave → List (Cycle × Bool) → List Bool
  | _, [] => []
  | s, i :: is => level s.uart.tx :: levels divisor (s.step divisor i) is

/-- Between two clocks of a polite program. -/
structure Sound (divisor : Divisor) (a : Wire) (s : Slave) : Prop where
  tracks : Tracks divisor a s.uart.tx s.uart.txData
  last : ∀ data, s.last = some (.write 1 data) → s.uart.txData = data.setWidth 8
  plain : ∀ data, s.last ≠ some (.write 3 data)
  unbroken : s.uart.controlReg = 0
  high : s.uart.tx.txShiftRegister = 0 → s.uart.tx.preTxd = true
  overrun : s.uart.tx.txOverrun = false

theorem sound_start (divisor : Divisor) : Sound divisor ⟨none, .quiet⟩ start where
  tracks := ⟨rfl, by simp, rfl, rfl⟩
  last := by simp [start]
  plain := by simp [start]
  unbroken := rfl
  high := fun _ => rfl
  overrun := rfl

/-- A write strobe begins exactly where a byte begins to be written. -/
theorem onset_txdata (s : Slave) (i : Cycle × Bool) :
    (s.uart.txIn (signals i.1.begins (i.1.access s.last))).txWrStrobeOnset =
      i.1.txdata.isSome := by
  obtain ⟨c, v⟩ := i
  cases c with
  | idle => rfl
  | first access =>
    cases access with
    | read address => rfl
    | write address data =>
      by_cases haddress : address = 1#3 <;>
        simp [State.txIn, TxIn.txWrStrobeOnset, signals, Bus.txWrStrobe, Cycle.access,
          Cycle.begins, Cycle.txdata, haddress]
  | again =>
    cases hlast : s.last with
    | none => rfl
    | some access =>
      cases access <;> simp [State.txIn, TxIn.txWrStrobeOnset, signals, Cycle.begins, Cycle.access,
        Cycle.txdata]

theorem txData_step {divisor : Divisor} {s : Slave}
    (hlast : ∀ data, s.last = some (.write 1 data) → s.uart.txData = data.setWidth 8)
    (i : Cycle × Bool) :
    (s.step divisor i).uart.txData = i.1.txdata.getD s.uart.txData := by
  obtain ⟨c, v⟩ := i
  cases c with
  | idle => rfl
  | first access =>
    cases access with
    | read address => rfl
    | write address data =>
      by_cases haddress : address = 1#3 <;>
        simp [Slave.step, State.step, signals, Bus.txWrStrobe, Cycle.access, Cycle.txdata,
          haddress]
  | again =>
    cases hl : s.last with
    | none => simp [Slave.step, State.step, signals, Bus.txWrStrobe, Cycle.access, Cycle.txdata, hl]
    | some access =>
      cases access with
      | read address =>
        simp [Slave.step, State.step, signals, Bus.txWrStrobe, Cycle.access, Cycle.txdata, hl]
      | write address data =>
        by_cases haddress : address = 1#3
        · subst haddress
          have hdata := hlast data hl
          simp [Slave.step, State.step, signals, Bus.txWrStrobe, Cycle.access, Cycle.txdata, hl,
            hdata]
        · simp [Slave.step, State.step, signals, Bus.txWrStrobe, Cycle.access, Cycle.txdata, hl,
            haddress]

/-- The access on the bus after a clock is a new one, the one before, or none. -/
theorem last_step {divisor : Divisor} {s : Slave} {i : Cycle × Bool} {access : Access}
    (h : (s.step divisor i).last = some access) :
    i.1 = .first access ∨ (i.1 = .again ∧ s.last = some access) := by
  obtain ⟨c, v⟩ := i
  cases c with
  | idle => cases h
  | first b =>
    have hb : b = access := by simpa [Slave.step, Cycle.access] using h
    exact .inl (by rw [hb])
  | again => exact .inr ⟨rfl, h⟩

theorem controlReg_step {divisor : Divisor} {s : Slave} {i : Cycle × Bool}
    (hplain : i.1.plain = true) (hlast : ∀ data, s.last ≠ some (.write 3 data)) :
    (s.step divisor i).uart.controlReg = s.uart.controlReg := by
  have hquiet : ∀ access, (∀ data, access ≠ some (.write 3 data)) →
      (signals i.1.begins access).controlWrStrobe = false := by
    intro access hne
    match access with
    | none => rfl
    | some (.read address) => rfl
    | some (.write address data) =>
      have haddress : address ≠ 3 := by
        rintro rfl
        exact hne data rfl
      simpa [signals, Bus.controlWrStrobe] using haddress
  have hstrobe := hquiet (i.1.access s.last) <| by
    intro data hacc
    obtain ⟨c, v⟩ := i
    cases c with
    | idle => cases hacc
    | first access =>
      obtain rfl : access = .write 3 data := by simpa [Cycle.access] using hacc
      simp [Cycle.plain] at hplain
    | again => exact hlast data hacc
  simp [Slave.step, State.step, hstrobe]

theorem preTxd_step {divisor : Divisor} {s : Slave} {i : Cycle × Bool}
    (hhigh : s.uart.tx.txShiftRegister = 0 → s.uart.tx.preTxd = true) :
    (s.step divisor i).uart.tx.preTxd = level s.uart.tx := by
  by_cases hempty : s.uart.tx.txShiftRegister = 0
  · simp [Slave.step, State.step, Tx.step, level, Tx.shiftDone, hempty, hhigh hempty]
  · have hbusy : s.uart.tx.shiftDone = false := beq_eq_false_iff_ne.mpr hempty
    simp [Slave.step, State.step, Tx.step, level, hbusy]

/-- The shift register runs empty behind a stop bit. -/
theorem level_of_emptied {divisor : Divisor} {a : Wire} {s s' : Tx} {txData txData' : Byte}
    {written : Option Byte} (h : Tracks divisor a s txData)
    (h' : Tracks divisor (a.next divisor written) s' txData') (hempty : s'.txShiftRegister = 0) :
    level s = true := by
  obtain ⟨held, stage⟩ := a
  have hstage := h.stage
  have hstage' := h'.stage
  cases stage with
  | quiet => exact level_empty hstage.2
  | loading => exact level_empty hstage.2.1
  | loaded b =>
    have hload : s'.txShiftRegister = txLoadVal b >>> 0 := hstage'.2.1
    exact absurd (hload.symm.trans hempty) (shifted_ne_zero b (by omega))
  | shifting b bit clocks =>
    obtain ⟨-, hshift, hbit, -⟩ := hstage
    rw [level_shifted hbit hshift]
    by_cases hlast : bit = 9
    · subst hlast
      simp [frameBits, List.range_succ]
    · have hnext : (Wire.next divisor ⟨held, .shifting b bit clocks⟩ written).stage =
          shifted divisor b bit clocks := rfl
      have hmore : bit < 9 := by omega
      rw [hnext, shifted, if_pos hmore] at hstage'
      split_ifs at hstage'
      · exact absurd (hstage'.2.1.symm.trans hempty) (shifted_ne_zero b hbit)
      · exact absurd (hstage'.2.1.symm.trans hempty) (shifted_ne_zero b (by omega))

theorem sound_step {divisor : Divisor} (hdiv : divisor ≠ 0) {a : Wire} {s : Slave}
    (h : Sound divisor a s) {i : Cycle × Bool} (hplain : i.1.plain = true)
    (hfree : i.1.txdata.isSome → s.uart.tx.txReady = true) :
    Sound divisor (a.next divisor i.1.txdata) (s.step divisor i) := by
  have hdata := @txData_step divisor s h.last i
  have hheld : i.1.txdata.isSome → a.held = none := fun hw => by
    have hready := h.tracks.ready
    rw [hfree hw] at hready
    exact Option.isNone_iff_eq_none.mp hready.symm
  have honset := onset_txdata s i
  constructor
  · rw [hdata]
    exact tracks_next hdiv h.tracks rfl honset hheld
  · intro data hl
    rw [hdata]
    obtain hfirst | ⟨hagain, hbefore⟩ := last_step hl
    · simp [hfirst, Cycle.txdata]
    · rw [hagain, h.last data hbefore]
      rfl
  · intro data hl
    obtain hfirst | ⟨-, hbefore⟩ := last_step hl
    · rw [hfirst] at hplain
      simp [Cycle.plain] at hplain
    · exact h.plain data hbefore
  · rw [controlReg_step hplain h.plain, h.unbroken]
  · intro hempty
    rw [preTxd_step h.high]
    exact level_of_emptied h.tracks (tracks_next hdiv h.tracks rfl honset hheld) hempty
  · have hnever : (!s.uart.tx.txReady && i.1.txdata.isSome) = false := by
      cases hw : i.1.txdata.isSome with
      | false => rw [Bool.and_false]
      | true => rw [hfree hw]; rfl
    simp only [Slave.step, State.step, Tx.step, honset, hnever, h.overrun, Bool.false_eq_true,
      if_false, ite_self]

/-! ## The levels on txd -/

theorem sends_waiting (divisor : Divisor) (written : Option Byte) :
    Sends (· = bitTimes divisor) (waiting divisor written) written.toList := by
  cases written with
  | none => exact .rest
  | some b =>
    have hframe : Sends (· = bitTimes divisor) (frameWave (bitTimes divisor) b ++ []) [b] :=
      .frame (by simp [bitTimes]) rfl .rest
    rw [List.append_nil] at hframe
    exact .idle (.idle hframe)

/-- One level on the line, owed or at rest, and what is written now at the end. -/
theorem sends_level {divisor : Divisor} {before owed : List Bool} {bs : List Byte}
    (h : Sends (· = bitTimes divisor) (before ++ owed) bs) (written : Option Byte) :
    Sends (· = bitTimes divisor)
      (before ++ [owed.headD true] ++ (owed.tail ++ waiting divisor written))
      (bs ++ written.toList) := by
  have hwaiting := sends_waiting divisor written
  cases owed with
  | nil =>
    rw [List.append_nil] at h
    have hidle := h.append (.idle hwaiting)
    simpa using hidle
  | cons v rest => simpa using h.append hwaiting

theorem free_of_ready {divisor : Divisor} {a : Wire} {s : Slave} (h : Sound divisor a s)
    (hready : s.uart.tx.txReady = true) : a.held = none := by
  rw [h.tracks.ready] at hready
  exact Option.isNone_iff_eq_none.mp hready

/-- A program that leaves the control register alone and writes to TXDATA only at clocks
at which TRDY is set. -/
structure Polite (divisor : Divisor) (s : Slave) (is : List (Cycle × Bool)) : Prop where
  plain : ∀ i ∈ is, i.1.plain = true
  free : ∀ pre i post, is = pre ++ i :: post → i.1.txdata.isSome →
    (s.run divisor pre).uart.tx.txReady = true

theorem Polite.head {divisor : Divisor} {s : Slave} {i : Cycle × Bool} {is : List (Cycle × Bool)}
    (h : Polite divisor s (i :: is)) :
    i.1.plain = true ∧ (i.1.txdata.isSome → s.uart.tx.txReady = true) :=
  ⟨h.plain i (by simp), h.free [] i is rfl⟩

theorem Polite.tail {divisor : Divisor} {s : Slave} {i : Cycle × Bool} {is : List (Cycle × Bool)}
    (h : Polite divisor s (i :: is)) : Polite divisor (s.step divisor i) is :=
  ⟨fun j hj => h.plain j (by simp [hj]),
    fun pre j post hpre => h.free (i :: pre) j post (by rw [hpre]; rfl)⟩

theorem polite_nil (divisor : Divisor) (s : Slave) : Polite divisor s [] :=
  ⟨fun i hi => (by cases hi), fun pre i post hpre => (by simp at hpre)⟩

theorem Polite.cons {divisor : Divisor} {s : Slave} {i : Cycle × Bool} {is : List (Cycle × Bool)}
    (h : Polite divisor (s.step divisor i) is) (hplain : i.1.plain = true)
    (hfree : i.1.txdata.isSome → s.uart.tx.txReady = true) : Polite divisor s (i :: is) := by
  refine ⟨fun j hj => ?_, fun pre j post hpre hw => ?_⟩
  · obtain rfl | hj := List.mem_cons.mp hj
    · exact hplain
    · exact h.plain j hj
  · cases pre with
    | nil =>
      obtain ⟨rfl, -⟩ := List.cons.inj hpre
      exact hfree hw
    | cons k pre =>
      obtain ⟨rfl, hrest⟩ := List.cons.inj hpre
      exact h.free pre j post hrest hw

/-- The bytes written to TXDATA along a run. -/
def sent (is : List (Cycle × Bool)) : List Byte := is.filterMap fun i => i.1.txdata

@[simp] theorem sent_nil : sent [] = [] := rfl
theorem sent_cons (i : Cycle × Bool) (is : List (Cycle × Bool)) :
    sent (i :: is) = i.1.txdata.toList ++ sent is := by
  cases hw : i.1.txdata <;> simp [sent, hw]

theorem sent_append (is js : List (Cycle × Bool)) : sent (is ++ js) = sent is ++ sent js :=
  List.filterMap_append

section Runs

variable {divisor : Divisor} {a : Wire} {s : Slave} {is : List (Cycle × Bool)}

/-- Whatever is still owed completes the line to one that sends all the bytes, and every
clock without a write takes one level off it. -/
theorem sends_levels (hdiv : divisor ≠ 0) (h : Sound divisor a s) (hpolite : Polite divisor s is)
    {before : List Bool} {bs : List Byte}
    (hbefore : Sends (· = bitTimes divisor) (before ++ a.owed divisor) bs) :
    ∃ a', Sound divisor a' (s.run divisor is) ∧
      Sends (· = bitTimes divisor) (before ++ levels divisor s is ++ a'.owed divisor)
        (bs ++ sent is) ∧
      (sent is = [] → (a'.owed divisor).length = (a.owed divisor).length - is.length) := by
  induction is generalizing a s before bs with
  | nil => exact ⟨a, h, by simpa [levels] using hbefore, fun _ => rfl⟩
  | cons i is ih =>
    obtain ⟨hplain, hfree⟩ := hpolite.head
    have hnext := sound_step hdiv h hplain hfree
    have howed := owed_next h.tracks fun hw => free_of_ready h (hfree hw)
    have hstep := sends_level hbefore i.1.txdata
    rw [← howed, ← level_owed h.tracks] at hstep
    obtain ⟨a', hsound, hsends, hfewer⟩ := ih hnext hpolite.tail hstep
    refine ⟨a', hsound, ?_, ?_⟩
    · rw [sent_cons, ← List.append_assoc]
      simpa [levels] using hsends
    · intro hquiet
      rw [sent_cons, List.append_eq_nil_iff, Option.toList_eq_nil_iff] at hquiet
      rw [hfewer hquiet.2, howed, hquiet.1]
      simp [waiting]
      omega

theorem levels_append (divisor : Divisor) (s : Slave) (is js : List (Cycle × Bool)) :
    levels divisor s (is ++ js) = levels divisor s is ++ levels divisor (s.run divisor is) js := by
  induction is generalizing s with
  | nil => rfl
  | cons i is ih => simp [levels, ih]

/-- txd follows the shift register two clocks later. -/
theorem txds_levels (hdiv : divisor ≠ 0) (h : Sound divisor a s) (hpolite : Polite divisor s is) :
    txds divisor s is ++ [(s.run divisor is).uart.tx.preTxd] =
      s.uart.tx.preTxd :: levels divisor s is := by
  induction is generalizing a s with
  | nil => rfl
  | cons i is ih =>
    obtain ⟨hplain, hfree⟩ := hpolite.head
    have hnext := sound_step hdiv h hplain hfree
    have htxd : (s.step divisor i).uart.tx.txd = s.uart.tx.preTxd := by
      simp [Slave.step, State.step, Tx.step, State.txIn, h.unbroken]
    rw [txds, run_cons, List.cons_append, ih hnext hpolite.tail, htxd, preTxd_step h.high, levels]

theorem length_wave {vs : List Bool} {ds : List Nat} (h : vs.length = ds.length) :
    (wave (vs.zip ds)).length = ds.sum := by
  induction vs generalizing ds with
  | nil => cases ds <;> simp_all
  | cons v vs ih =>
    cases ds with
    | nil => cases h
    | cons d ds =>
      have hrest := @ih ds (by simpa using h)
      simp [hrest]

/-- The clocks of a frame. -/
def frameClocks (divisor : Divisor) : Nat := 10 * divisor.toNat + 12

theorem length_frame (divisor : Divisor) (b : Byte) :
    (frameWave (bitTimes divisor) b).length = frameClocks divisor := by
  rw [frameWave, length_wave (by simp [bitTimes])]
  simp [bitTimes, frameClocks]
  omega

theorem length_waiting (divisor : Divisor) (held : Option Byte) :
    (waiting divisor held).length ≤ frameClocks divisor + 2 := by
  cases held with
  | none => simp [waiting]
  | some b => simp [waiting, queued, length_frame]

theorem length_remaining (divisor : Divisor) (b : Byte) {bit clocks : Nat} (hbit : bit < 10)
    (hclocks : clocks ≤ divisor.toNat + 2) :
    (remaining divisor b bit clocks).length < frameClocks divisor := by
  have hrest : (9 - bit) * (divisor.toNat + 1) ≤ 9 * (divisor.toNat + 1) :=
    Nat.mul_le_mul_right _ (by omega)
  rw [remaining, List.length_append, length_wave (by simp), List.length_replicate,
    List.sum_replicate_nat, frameClocks]
  omega

/-- At most the frame under way and the next one are owed. -/
theorem length_owed (h : Sound divisor a s) :
    (a.owed divisor).length ≤ 2 * frameClocks divisor + 2 := by
  obtain ⟨held, stage⟩ := a
  have hstage := h.tracks.stage
  have hheld := length_waiting divisor held
  cases stage with
  | quiet =>
    simp only [Wire.owed]
    omega
  | loading =>
    simp only [Wire.owed, List.length_tail]
    omega
  | loaded b =>
    simp only [Wire.owed, List.length_append, length_frame]
    omega
  | shifting b bit clocks =>
    obtain ⟨-, -, hbit, -, hmost⟩ := hstage
    have hlength := length_remaining divisor b hbit hmost
    simp only [Wire.owed, List.length_append]
    omega

theorem polite_append {js : List (Cycle × Bool)} (h : Polite divisor s (is ++ js)) :
    Polite divisor s is ∧ Polite divisor (s.run divisor is) js := by
  constructor
  · exact ⟨fun i hi => h.plain i (by simp [hi]),
      fun pre i post hpre => h.free pre i (post ++ js) (by simp [hpre])⟩
  · refine ⟨fun i hi => h.plain i (by simp [hi]), fun pre i post hpre hw => ?_⟩
    have hready := h.free (is ++ pre) i post (by simp [hpre]) hw
    rwa [run_append] at hready

end Runs

theorem sends_start (divisor : Divisor) : Sends (· = bitTimes divisor)
    ([true] ++ (⟨none, .quiet⟩ : Wire).owed divisor) ([] : List Byte) :=
  .idle .rest

/-- At any time what is still to come completes the line. -/
theorem frames_underway {divisor : Divisor} (hdiv : divisor ≠ 0) {is : List (Cycle × Bool)}
    (hpolite : Polite divisor start is) : ∃ rest, rest.length ≤ 2 * frameClocks divisor + 3 ∧
      Sends (· = bitTimes divisor) (txds divisor start is ++ rest) (sent is) := by
  have hstart := sound_start divisor
  obtain ⟨a, hsound, hsends, -⟩ := sends_levels hdiv hstart hpolite (sends_start divisor)
  refine ⟨(start.run divisor is).uart.tx.preTxd :: a.owed divisor, ?_, ?_⟩
  · have hlength := length_owed hsound
    rw [List.length_cons]
    omega
  · have hline : txds divisor start is ++ (start.run divisor is).uart.tx.preTxd :: a.owed divisor =
        [true] ++ levels divisor start is ++ a.owed divisor := by
      rw [List.append_cons, txds_levels hdiv hstart hpolite]
      rfl
    rw [hline]
    exact hsends

/-- After two frames without a write nothing is still to come. -/
theorem frames_complete {divisor : Divisor} (hdiv : divisor ≠ 0)
    {early late : List (Cycle × Bool)} (hpolite : Polite divisor start (early ++ late))
    (hquiet : sent late = []) (hlong : 2 * frameClocks divisor + 3 ≤ late.length) :
    Sends (· = bitTimes divisor) (txds divisor start (early ++ late)) (sent (early ++ late)) := by
  have hstart := sound_start divisor
  have htxds := txds_levels hdiv hstart hpolite
  -- the last clock only moves the level of the clock before it to txd
  obtain rfl | ⟨mid, j, rfl⟩ := List.eq_nil_or_concat' late
  · simp at hlong
  rw [sent_append, List.append_eq_nil_iff] at hquiet
  rw [List.length_append, List.length_singleton] at hlong
  obtain ⟨hearly, hlate⟩ := polite_append hpolite
  obtain ⟨b, hb, hbsends, -⟩ := sends_levels hdiv hstart hearly (sends_start divisor)
  obtain ⟨c, hc, hcsends, hfewer⟩ := sends_levels hdiv hb (polite_append hlate).1 hbsends
  have howed := length_owed hb
  have hnone : c.owed divisor = [] := by
    apply List.eq_nil_of_length_eq_zero
    rw [hfewer hquiet.1]
    omega
  have hline : txds divisor start (early ++ (mid ++ [j])) =
      [true] ++ levels divisor start early ++ levels divisor (start.run divisor early) mid := by
    have hlast : txds divisor start (early ++ (mid ++ [j])) ++
        [(start.run divisor (early ++ (mid ++ [j]))).uart.tx.preTxd] =
        [true] ++ levels divisor start early ++ levels divisor (start.run divisor early) mid ++
          [level ((start.run divisor early).run divisor mid).uart.tx] := by
      rw [htxds, levels_append, levels_append, ← List.append_assoc]
      rfl
    exact (List.append_inj' hlast rfl).1
  rw [hline, sent_append, sent_append, hquiet.1, hquiet.2]
  rw [hnone, List.append_nil, hquiet.1] at hcsends
  simpa using hcsends

theorem overrun_off {divisor : Divisor} (hdiv : divisor ≠ 0) {is : List (Cycle × Bool)}
    (hpolite : Polite divisor start is) : (start.run divisor is).uart.tx.txOverrun = false := by
  obtain ⟨a, hsound, -⟩ := sends_levels hdiv (sound_start divisor) hpolite (sends_start divisor)
  exact hsound.overrun

/-- The transmitter of `nios_uart_0` from reset, written to at clocks with TRDY only: txd
carries one frame for each byte in order, of which at most two are still to come; once
there has been no write for as long, all of them have been sent. The overrun flag stays off. -/
theorem frames_sent {divisor : Divisor} (hdiv : divisor ≠ 0) {is : List (Cycle × Bool)}
    (hpolite : Polite divisor start is) :
    (∃ rest, rest.length ≤ 2 * frameClocks divisor + 3 ∧
      Sends (· = bitTimes divisor) (txds divisor start is ++ rest) (sent is)) ∧
    (∀ early late, is = early ++ late → sent late = [] →
      2 * frameClocks divisor + 3 ≤ late.length →
      Sends (· = bitTimes divisor) (txds divisor start is) (sent is)) ∧
    (start.run divisor is).uart.tx.txOverrun = false := by
  refine ⟨frames_underway hdiv hpolite, ?_, overrun_off hdiv hpolite⟩
  rintro early late rfl hquiet hlong
  exact frames_complete hdiv hpolite hquiet hlong

/-- One byte written after reset, and then some clocks without an access. -/
def oneByte (b : BitVec 16) (n : Nat) : List (Cycle × Bool) :=
  (.first (.write 1 b), true) :: List.replicate n (.idle, true)

theorem sent_idle (n : Nat) : sent (List.replicate n (.idle, true)) = [] := by
  simp [sent, Cycle.txdata]

theorem sent_oneByte (b : BitVec 16) (n : Nat) : sent (oneByte b n) = [b.setWidth 8] := by
  rw [oneByte, sent_cons, sent_idle]
  rfl

theorem polite_idle (divisor : Divisor) (s : Slave) (n : Nat) :
    Polite divisor s (List.replicate n (.idle, true)) := by
  induction n generalizing s with
  | zero => exact polite_nil divisor s
  | succ n ih => exact (ih _).cons rfl fun hw => by cases hw

theorem polite_oneByte (divisor : Divisor) (b : BitVec 16) (n : Nat) :
    Polite divisor start (oneByte b n) :=
  (polite_idle divisor _ n).cons rfl fun _ => rfl

theorem frames_sent_oneByte :
    Sends (· = bitTimes divisorConstant)
      (txds divisorConstant start (oneByte 0x41 8707)) [0x41#8] := by
  have hline := (frames_sent (by decide) (polite_oneByte divisorConstant 0x41 8707)).2.1
    [(.first (.write 1 0x41), true)] (List.replicate 8707 (.idle, true)) rfl (sent_idle 8707)
    (by rw [List.length_replicate]; decide)
  rwa [sent_oneByte] at hline

end UartTx
