import NiosMenu.UartRx

/-!
# How fast words can arrive

Two samples of the receiver are at least `centre` clocks apart on any line, also on one
with noise, for an edge sets the baud counter to that much and a sample to more. A word
takes ten samples, and a falling edge before the first of them.
-/
namespace UartRate

open Firmware SerialLine Uart UartTx UartRx

variable {divisor : Divisor} {s : RxLine}

theorem centre_le (hdiv : divisor ≠ 0) : centre divisor ≤ period divisor := by
  have hpos := toNat_pred hdiv
  rw [centre, period]
  omega

/-- The samples until the word in the shift register is complete, unless more ones come. -/
def ahead (r : BitVec 10) : Nat := ((bits r).takeWhile id).length

theorem ahead_le (r : BitVec 10) : ahead r ≤ 10 :=
  (List.takeWhile_sublist id).length_le.trans_eq (by simp [bits])

theorem ahead_allOnes : ahead (BitVec.allOnes 10) = 10 := by decide

theorem ahead_shiftIn (r : BitVec 10) (v : Bool) : ahead r ≤ ahead (shiftIn r v) + 1 := by
  rw [ahead, ahead, bits_shiftIn]
  obtain hnil | ⟨b, l, hbits⟩ : bits r = [] ∨ ∃ b l, bits r = b :: l := by
    cases bits r <;> simp
  · simp [hnil]
  · have hmore : (l.takeWhile id).length ≤ ((l ++ [v]).takeWhile id).length := by
      rw [List.takeWhile_append]
      split <;> simp [*]
    rw [hbits]
    cases b <;> simp
    exact hmore

theorem ahead_pos : 0 < ahead s.rxdShiftReg ↔ s.rxInProcess = true := by
  rw [ahead, rxInProcess_bits]
  cases hbits : bits s.rxdShiftReg with
  | nil => simp [bits] at hbits
  | cons b l => cases b <;> simp

/-- The fewest clocks between two words. -/
def gap (divisor : Divisor) : Nat := 10 * centre divisor + 1

/-- The fewest clocks that pass before the next word is complete. -/
def due (divisor : Divisor) (s : RxLine) : Nat :=
  if s.gotNewChar then 0
  else if s.doStartRx then (sampler s).lead (centre divisor) + 1 + 9 * centre divisor
  else if s.rxInProcess then
    (sampler s).lead (centre divisor) + 1 + (ahead s.rxdShiftReg - 1) * centre divisor
  else gap divisor

theorem due_le (divisor : Divisor) (s : RxLine) : due divisor s ≤ gap divisor := by
  have hlead : (sampler s).lead (centre divisor) ≤ centre divisor - 1 := Nat.min_le_right _ _
  have hpos : 2 ≤ centre divisor := by rw [centre]; omega
  have hahead := ahead_le s.rxdShiftReg
  have hmul : (ahead s.rxdShiftReg - 1) * centre divisor ≤ 9 * centre divisor :=
    Nat.mul_le_mul_right _ (by omega)
  rw [due, gap]
  split_ifs <;> omega

/-- A word that is complete leaves no start of another behind. -/
structure Calm (divisor : Divisor) (s : RxLine) : Prop where
  paced : Paced divisor s
  settled : s.gotNewChar = true → s.doStartRx = false

theorem calm_step (divisor : Divisor) (s : RxLine) (v : Bool) :
    Calm divisor (s.step divisor v) := by
  refine ⟨paced_step divisor s v, fun hnew => ?_⟩
  have hbefore : s.rxInProcess = true := (Bool.and_eq_true_iff.mp hnew).2
  simp [RxLine.step, hbefore]

theorem calm_reset (divisor : Divisor) : Calm divisor RxLine.reset :=
  ⟨(resting_reset divisor).paced, fun _ => rfl⟩

/-- Outside a word the shift register stands still. -/
theorem step_outside (hidle : s.doStartRx = false) (hquiet : s.rxInProcess = false) (v : Bool) :
    (s.step divisor v).rxInProcess = false ∧ (s.step divisor v).gotNewChar = false := by
  have hreg : (s.step divisor v).rxdShiftReg = s.rxdShiftReg := by
    simp [RxLine.step, RxLine.sampleEnable, hidle, hquiet]
  have hafter : (s.step divisor v).rxInProcess = false := by
    rw [RxLine.rxInProcess, hreg]
    exact hquiet
  have hbefore : (s.step divisor v).delayedRxInProcess = false := hquiet
  exact ⟨hafter, by simp [RxLine.gotNewChar, hbefore]⟩

/-- From there a word takes a falling edge and ten samples. -/
theorem due_outside (hdiv : divisor ≠ 0) (h : Calm divisor s) (hidle : s.doStartRx = false)
    (hquiet : s.rxInProcess = false) (v : Bool) :
    gap divisor ≤ due divisor (s.step divisor v) + 1 := by
  obtain ⟨hafter, hnew⟩ := @step_outside divisor s hidle hquiet v
  rw [due, hnew, if_neg Bool.false_ne_true, hafter, if_neg Bool.false_ne_true]
  split_ifs with hstart
  · have hfall : s.rxdFalling v = true := (Bool.and_eq_true_iff.mp hstart).2
    obtain ⟨hlow, hhigh⟩ : v = false ∧ s.delayedSyncRxd1 = true := by
      simpa [RxLine.rxdFalling] using hfall
    have hedge : v ≠ (sampler s).level := by
      have hlevel : (sampler s).level = true := h.paced.level.symm.trans hhigh
      simp [hlow, hlevel]
    rw [sampler_step hdiv h.paced, Sampler.lead_renewed (centre_le hdiv) (.inr hedge), gap, centre]
    omega
  · omega

/-- Inside a word the clocks are those to the next sample and those between the samples left. -/
theorem due_busy (hidle : s.doStartRx = false) (hbusy : s.rxInProcess = true) :
    due divisor s =
      (sampler s).lead (centre divisor) + 1 + (ahead s.rxdShiftReg - 1) * centre divisor := by
  have hnew : s.gotNewChar = false := by simp [RxLine.gotNewChar, hbusy]
  simp [due, hnew, hidle, hbusy]

theorem due_inside (hdiv : divisor ≠ 0) (h : Calm divisor s) (hidle : s.doStartRx = false)
    (hbusy : s.rxInProcess = true) (v : Bool) :
    due divisor s ≤ due divisor (s.step divisor v) + 1 := by
  have hstart : (s.step divisor v).doStartRx = false := by simp [RxLine.step, hbusy]
  have hreg : (s.step divisor v).rxdShiftReg =
      if s.baudClkEn then shiftIn s.rxdShiftReg v else s.rxdShiftReg := by
    simp [RxLine.step, RxLine.sampleEnable, hidle, hbusy]
  rw [due_busy hidle hbusy]
  cases hben : s.baudClkEn with
  | false =>
    rw [hben, if_neg Bool.false_ne_true] at hreg
    have hafter : (s.step divisor v).rxInProcess = true := by
      rw [RxLine.rxInProcess, hreg]
      exact hbusy
    have hlead := Sampler.lead_next (centre_le hdiv) (sampler s) v
    rw [due_busy hstart hafter, hreg, sampler_step hdiv h.paced]
    omega
  | true =>
    rw [hben, if_pos rfl] at hreg
    have hphase : (sampler s).phase = 0 := phase_zero.mpr hben
    have hnone : (sampler s).lead (centre divisor) = 0 := by simp [Sampler.lead, hphase]
    have hshift := ahead_shiftIn s.rxdShiftReg v
    rw [← hreg] at hshift
    by_cases hafter : (s.step divisor v).rxInProcess = true
    · have hrenewed := Sampler.lead_renewed (v := v) (centre_le hdiv) (.inl hphase)
      obtain ⟨n, hn⟩ := Nat.exists_eq_succ_of_ne_zero (ahead_pos.mpr hafter).ne'
      have hcentre : 2 ≤ centre divisor := by rw [centre]; omega
      have hfewer : (ahead s.rxdShiftReg - 1) * centre divisor ≤ (n + 1) * centre divisor :=
        Nat.mul_le_mul_right _ (by omega)
      rw [Nat.succ_mul] at hfewer
      rw [due_busy hstart hafter, sampler_step hdiv h.paced, hrenewed, hnone, hn,
        Nat.succ_eq_add_one, Nat.add_sub_cancel]
      omega
    · -- the word is complete
      have hlast : ahead (s.step divisor v).rxdShiftReg = 0 :=
        Nat.eq_zero_of_not_pos fun hpos => hafter (ahead_pos.mp hpos)
      have hone : ahead s.rxdShiftReg - 1 = 0 := by omega
      rw [hone, hnone]
      omega

/-- A start sets the shift register. -/
theorem due_start (hdiv : divisor ≠ 0) (h : Calm divisor s) (hstart : s.doStartRx = true)
    (v : Bool) : due divisor s ≤ due divisor (s.step divisor v) + 1 := by
  have hreg : (s.step divisor v).rxdShiftReg = BitVec.allOnes 10 := by
    simp [RxLine.step, hstart]
  have hbusy : (s.step divisor v).rxInProcess = true := by
    rw [RxLine.rxInProcess, hreg]
    decide
  have hnew : (s.step divisor v).gotNewChar = false := by simp [RxLine.gotNewChar, hbusy]
  have hold : s.gotNewChar = false := by
    by_contra hon
    have hoff := h.settled (by simpa using hon)
    rw [hstart] at hoff
    cases hoff
  have hlead := Sampler.lead_next (centre_le hdiv) (sampler s) v
  simp only [due, hold, hnew, hstart, hbusy, hreg, ahead_allOnes, sampler_step hdiv h.paced,
    Bool.false_eq_true, if_false, if_true]
  split_ifs <;> omega

/-- A clock brings the next word nearer by no more than one clock. -/
theorem due_step (hdiv : divisor ≠ 0) (h : Calm divisor s) (v : Bool) :
    due divisor s ≤ due divisor (s.step divisor v) + 1 := by
  cases hstart : s.doStartRx with
  | true => exact due_start hdiv h hstart v
  | false =>
    cases hbusy : s.rxInProcess with
    | true => exact due_inside hdiv h hstart hbusy v
    | false => exact (due_le divisor s).trans (due_outside hdiv h hstart hbusy v)

/-- Behind a word the next one is a whole gap away. -/
theorem due_pending (hdiv : divisor ≠ 0) (h : Calm divisor s) (hnew : s.gotNewChar = true)
    (v : Bool) : gap divisor ≤ due divisor (s.step divisor v) + 1 := by
  have hquiet : s.rxInProcess = false := by
    simpa using (Bool.and_eq_true_iff.mp hnew).1
  exact due_outside hdiv h (h.settled hnew) hquiet v

theorem due_zero (hnew : s.gotNewChar = true) : due divisor s = 0 := by rw [due, if_pos hnew]

/-- On any line, also one with noise, two words are at least `gap` clocks apart. -/
theorem arrivals_due (hdiv : divisor ≠ 0) (h : Calm divisor s) (vs : List Bool) :
    (arrivals divisor s vs).length * gap divisor + due divisor s ≤ vs.length + gap divisor := by
  induction vs generalizing s with
  | nil => simpa using due_le divisor s
  | cons v vs ih =>
    have hrest := ih (calm_step divisor s v)
    cases hnew : s.gotNewChar with
    | true =>
      have hfar := due_pending hdiv h hnew v
      rw [arrivals_cons, pending, if_pos hnew, List.singleton_append, List.length_cons,
        List.length_cons, Nat.succ_mul, due_zero hnew]
      omega
    | false =>
      have hnear := due_step hdiv h v
      rw [arrivals_cons, pending, hnew, if_neg Bool.false_ne_true, List.nil_append,
        List.length_cons]
      omega

/-- From reset on, `n` words need as many gaps on any line. -/
theorem arrivals_spaced (hdiv : divisor ≠ 0) (vs : List Bool) :
    (arrivals divisor .reset vs).length * gap divisor ≤ vs.length := by
  have hdue := arrivals_due hdiv (calm_reset divisor) vs
  have hgap : due divisor RxLine.reset = gap divisor := by simp [due, RxLine.reset,
    RxLine.gotNewChar, RxLine.rxInProcess]
  omega

/-- Pulses of four clocks, faster than the bit time of five. -/
def pulses : List Bool :=
  (List.replicate 12 [true, true, true, true, false, false, false, false]).flatten

theorem arrivals_spaced_pulses :
    arrivals 4#9 .reset pulses = [0b1010101010#10] ∧
      (arrivals 4#9 .reset pulses).length * gap 4#9 ≤ pulses.length :=
  ⟨by decide +kernel, arrivals_spaced (by decide) pulses⟩

end UartRate
