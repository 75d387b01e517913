import NiosMenu.UartTx

/-!
# What the receiver takes from the line

The baud counter of the receiver is a sampler that every edge of the line sets again.
From a line whose frames stay in step with it the shift register collects each word
exactly as a transmitter loads it, with its start bit and its stop bit.
-/
namespace UartRx

open Firmware SerialLine Uart UartTx

/-- The clocks between two samples, and from an edge to the first sample behind it. -/
def period (divisor : Divisor) : Nat := divisor.toNat + 1
def centre (divisor : Divisor) : Nat := divisor.toNat / 2 + 2

/-- The registers of the receiver after some levels of the synchronized line. -/
def listen (divisor : Divisor) (s : RxLine) (vs : List Bool) : RxLine :=
  vs.foldl (RxLine.step divisor) s

/-- A word that is complete and about to go to the data register. -/
def pending (s : RxLine) : List (BitVec 10) := if s.gotNewChar then [s.rxdShiftReg] else []

/-- The words that go to the data register along some levels. -/
def arrivals (divisor : Divisor) : RxLine → List Bool → List (BitVec 10)
  | _, [] => []
  | s, v :: vs => pending s ++ arrivals divisor (s.step divisor v) vs

@[simp] theorem listen_nil (divisor : Divisor) (s : RxLine) : listen divisor s [] = s := rfl
@[simp] theorem listen_cons (divisor : Divisor) (s : RxLine) (v : Bool) (vs : List Bool) :
    listen divisor s (v :: vs) = listen divisor (s.step divisor v) vs := rfl
theorem listen_append (divisor : Divisor) (s : RxLine) (vs ws : List Bool) :
    listen divisor s (vs ++ ws) = listen divisor (listen divisor s vs) ws := List.foldl_append

@[simp] theorem arrivals_nil (divisor : Divisor) (s : RxLine) : arrivals divisor s [] = [] := rfl
@[simp] theorem arrivals_cons (divisor : Divisor) (s : RxLine) (v : Bool) (vs : List Bool) :
    arrivals divisor s (v :: vs) = pending s ++ arrivals divisor (s.step divisor v) vs := rfl
theorem arrivals_append (divisor : Divisor) (s : RxLine) (vs ws : List Bool) :
    arrivals divisor s (vs ++ ws) =
      arrivals divisor s vs ++ arrivals divisor (listen divisor s vs) ws := by
  induction vs generalizing s with
  | nil => rfl
  | cons v vs ih => rw [List.cons_append, arrivals_cons, arrivals_cons, ih, listen_cons,
      List.append_assoc]

/-! ## The baud counter -/

/-- The baud counter and the delayed level, as a sampler. -/
def sampler (s : RxLine) : Sampler :=
  ⟨if s.baudClkEn then 0 else s.baudRateCounter.toNat + 1, s.delayedSyncRxd2⟩

structure Paced (divisor : Divisor) (s : RxLine) : Prop where
  full : s.baudClkEn = true → s.baudRateCounter = divisor
  level : s.delayedSyncRxd1 = s.delayedSyncRxd2

theorem toNat_halfBitCellDivisor (divisor : Divisor) :
    ((halfBitCellDivisor divisor).setWidth 9).toNat = divisor.toNat / 2 := by
  have hlt := divisor.isLt
  simp only [halfBitCellDivisor, BitVec.toNat_setWidth, BitVec.extractLsb'_toNat]
  omega

theorem paced_step (divisor : Divisor) (s : RxLine) (v : Bool) :
    Paced divisor (s.step divisor v) := by
  refine ⟨?_, rfl⟩
  intro hfull
  simp only [RxLine.step] at hfull ⊢
  cases hedge : s.rxdEdge v with
  | true => simp [hedge] at hfull
  | false =>
    rw [hedge, if_neg Bool.false_ne_true] at hfull
    rw [hfull, Bool.true_or, if_pos rfl, if_neg Bool.false_ne_true]

theorem sampler_step {divisor : Divisor} (hdiv : divisor ≠ 0) {s : RxLine}
    (h : Paced divisor s) (v : Bool) :
    sampler (s.step divisor v) = (sampler s).next (period divisor) (centre divisor) v := by
  have hhalf := toNat_halfBitCellDivisor divisor
  have hedge : s.rxdEdge v = (v != s.delayedSyncRxd2) := by
    cases v <;> cases hs : s.delayedSyncRxd2 <;> simp [RxLine.rxdEdge, hs]
  rw [Sampler.next]
  by_cases hv : v = s.delayedSyncRxd2
  · have hnone : s.rxdEdge v = false := by rw [hedge, hv]; simp
    have hsame : ¬ v ≠ (sampler s).level := fun hne => hne hv
    rw [if_neg hsame]
    cases hben : s.baudClkEn with
    | true =>
      have hcount := h.full hben
      have hpred := toNat_pred hdiv
      have hbusy : (divisor == 0) = false := beq_eq_false_iff_ne.mpr hdiv
      simp only [sampler, RxLine.step, hnone, hben, hcount, hbusy, Bool.or_false, if_true,
        Bool.false_eq_true, if_false, period, Sampler.mk.injEq, and_true]
      omega
    | false =>
      by_cases hzero : s.baudRateCounter = 0
      · simp [sampler, RxLine.step, hnone, hben, hzero]
      · have hpred := toNat_pred hzero
        have hbusy : (s.baudRateCounter == 0) = false := beq_eq_false_iff_ne.mpr hzero
        simp only [sampler, RxLine.step, hnone, hben, hbusy, Bool.or_false,
          Bool.false_eq_true, if_false, Sampler.mk.injEq, and_true, Nat.add_one_ne_zero]
        omega
  · have hsome : s.rxdEdge v = true := by rw [hedge]; simpa using hv
    have hother : v ≠ (sampler s).level := hv
    rw [if_pos hother]
    simp only [sampler, RxLine.step, hsome, Bool.or_true, if_true, Bool.false_eq_true, if_false,
      hhalf, centre, Sampler.mk.injEq, and_true]
    omega

theorem phase_zero {s : RxLine} : (sampler s).phase = 0 ↔ s.baudClkEn = true := by
  cases hben : s.baudClkEn <;> simp [sampler, hben]

/-! ## The shift register -/

/-- The bits of the shift register, the oldest first. -/
def bits (r : BitVec 10) : List Bool := (List.range 10).map r.getLsbD

theorem getLsbD_shiftIn (r : BitVec 10) (v : Bool) {i : Nat} (hi : i < 10) :
    (shiftIn r v).getLsbD i = if i = 9 then v else r.getLsbD (i + 1) := by
  have hparts : (shiftIn r v).getLsbD i =
      (BitVec.ofBool v ++ r.extractLsb' 1 9 : BitVec (1 + 9)).getLsbD i := rfl
  rw [hparts, BitVec.getLsbD_append]
  by_cases hlast : i = 9
  · subst hlast
    simp
  · have hlow : i < 9 := by omega
    rw [if_pos hlow, if_neg hlast, BitVec.getLsbD_extractLsb', Nat.add_comm]
    simp [hlow]

theorem bits_shiftIn (r : BitVec 10) (v : Bool) : bits (shiftIn r v) = (bits r).tail ++ [v] := by
  apply List.ext_getElem (by simp [bits])
  intro i hi _
  have hlt : i < 10 := by simpa [bits] using hi
  have hbit := getLsbD_shiftIn r v hlt
  by_cases hlast : i = 9
  · subst hlast
    simpa [bits, List.getElem_append] using hbit
  · have hlow : i < 9 := by omega
    simpa [bits, List.getElem_append, hlow, hlast] using hbit

theorem bits_allOnes : bits (BitVec.allOnes 10) = List.replicate 10 true := by decide

theorem bits_injective {q r : BitVec 10} (h : bits q = bits r) : q = r := by
  apply BitVec.eq_of_getLsbD_eq
  intro i hi
  have hget := congrArg (fun l => l.getD i false) h
  simpa [bits, List.getD_eq_getElem?_getD, hi] using hget

theorem bits_txLoadVal (b : Byte) : bits (txLoadVal b) = frameBits b := by
  apply List.ext_getElem (by simp [bits])
  intro i hi _
  have hlt : i < 10 := by simpa [bits] using hi
  have hbit := getLsbD_txLoadVal b hlt
  rw [List.getD_eq_getElem?_getD, List.getElem?_eq_getElem (by simpa using hlt),
    Option.getD_some] at hbit
  simpa [bits] using hbit

theorem rxInProcess_bits (s : RxLine) : s.rxInProcess = (bits s.rxdShiftReg).headD true := by
  simp [RxLine.rxInProcess, bits, List.range_succ]

/-! ## Between two words -/

structure Resting (divisor : Divisor) (s : RxLine) (level : Bool) : Prop where
  paced : Paced divisor s
  idle : s.doStartRx = false
  quiet : s.rxInProcess = false
  level : s.delayedSyncRxd1 = level

/-- Inside a word, of which some bits have been taken. -/
structure Receiving (divisor : Divisor) (s : RxLine) (taken : List Bool) : Prop where
  paced : Paced divisor s
  idle : s.doStartRx = false
  few : taken.length < 10
  shift : bits s.rxdShiftReg = List.replicate (10 - taken.length) true ++ taken

variable {divisor : Divisor} {s : RxLine} {taken : List Bool}

/-- Without a falling edge nothing begins. -/
theorem Resting.step {u v : Bool} (h : Resting divisor s u) (hrise : u = true → v = true) :
    Resting divisor (s.step divisor v) v ∧ pending (s.step divisor v) = [] := by
  have hreg : (s.step divisor v).rxdShiftReg = s.rxdShiftReg := by
    simp [RxLine.step, RxLine.sampleEnable, h.idle, h.quiet]
  have hquiet : (s.step divisor v).rxInProcess = false := by
    rw [RxLine.rxInProcess, hreg]
    exact h.quiet
  have hfall : s.rxdFalling v = false := by
    rw [RxLine.rxdFalling, h.level]
    cases u with
    | false => simp
    | true => simp [hrise rfl]
  have hnone : (s.step divisor v).delayedRxInProcess = false := h.quiet
  refine ⟨⟨paced_step divisor s v, by simp [RxLine.step, hfall], hquiet, rfl⟩, ?_⟩
  simp [pending, RxLine.gotNewChar, hnone]

theorem resting_run {v : Bool} (h : Resting divisor s v) (n : Nat) :
    Resting divisor (listen divisor s (List.replicate n v)) v ∧
      arrivals divisor s (List.replicate n v) ++
        pending (listen divisor s (List.replicate n v)) = pending s := by
  induction n generalizing s with
  | zero => exact ⟨h, rfl⟩
  | succ n ih =>
    obtain ⟨hnext, hnone⟩ := h.step id
    obtain ⟨hrest, harrive⟩ := ih hnext
    rw [List.replicate_succ, listen_cons, arrivals_cons, List.append_assoc, harrive, hnone,
      List.append_nil]
    exact ⟨hrest, rfl⟩

theorem Receiving.rxInProcess (h : Receiving divisor s taken) : s.rxInProcess = true := by
  obtain ⟨n, hn⟩ : ∃ n, 10 - taken.length = n + 1 := ⟨9 - taken.length, by have := h.few; omega⟩
  rw [rxInProcess_bits, h.shift, hn, List.replicate_succ]
  rfl

theorem Receiving.none_pending (h : Receiving divisor s taken) : pending s = [] := by
  simp [pending, RxLine.gotNewChar, h.rxInProcess]

/-- The bits taken by one clock. -/
theorem Receiving.bits_step (h : Receiving divisor s taken) (v : Bool) :
    bits (s.step divisor v).rxdShiftReg =
      if (sampler s).phase = 0 then List.replicate (9 - taken.length) true ++ taken ++ [v]
      else bits s.rxdShiftReg := by
  have hreg : (s.step divisor v).rxdShiftReg =
      if s.baudClkEn then shiftIn s.rxdShiftReg v else s.rxdShiftReg := by
    simp [RxLine.step, RxLine.sampleEnable, h.idle, h.rxInProcess]
  obtain ⟨n, hn⟩ : ∃ n, 10 - taken.length = n + 1 := ⟨9 - taken.length, by have := h.few; omega⟩
  have hrest : 9 - taken.length = n := by omega
  rw [hreg]
  by_cases hphase : (sampler s).phase = 0
  · rw [if_pos hphase, if_pos (phase_zero.mp hphase), bits_shiftIn, h.shift, hn, hrest,
      List.replicate_succ]
    rfl
  · rw [if_neg hphase, if_neg fun hben => hphase (phase_zero.mpr hben)]

theorem Receiving.step (h : Receiving divisor s taken) (v : Bool) {more : List Bool}
    (hmore : more = if (sampler s).phase = 0 then [v] else [])
    (hfew : (taken ++ more).length < 10) :
    Receiving divisor (s.step divisor v) (taken ++ more) := by
  refine ⟨paced_step divisor s v, by simp [RxLine.step, h.rxInProcess], hfew, ?_⟩
  rw [h.bits_step v, hmore]
  split_ifs
  · have hone : 10 - (taken ++ [v]).length = 9 - taken.length := by simp
    rw [hone, List.append_assoc]
  · rw [List.append_nil, h.shift]

theorem receiving_run (hdiv : divisor ≠ 0) (h : Receiving divisor s taken) {vs more : List Bool}
    (hmore : (sampler s).samples (period divisor) (centre divisor) vs = more)
    (hfew : (taken ++ more).length < 10) :
    Receiving divisor (listen divisor s vs) (taken ++ more) ∧ arrivals divisor s vs = [] ∧
      sampler (listen divisor s vs) = (sampler s).run (period divisor) (centre divisor) vs := by
  induction vs generalizing s taken more with
  | nil =>
    obtain rfl : [] = more := hmore
    rw [List.append_nil]
    exact ⟨h, rfl, rfl⟩
  | cons v vs ih =>
    rw [Sampler.samples] at hmore
    subst hmore
    rw [← List.append_assoc] at hfew ⊢
    have hfirst := h.step v rfl (by rw [List.length_append] at hfew; omega)
    have hsampler := sampler_step hdiv h.paced v
    obtain ⟨hrest, hnone, hrun⟩ := ih hfirst (by rw [hsampler]) hfew
    rw [hsampler] at hrun
    exact ⟨hrest, by rw [arrivals_cons, h.none_pending, hnone]; rfl, hrun⟩

/-- The last bit completes the word. -/
theorem Receiving.complete (h : Receiving divisor s taken) (hlen : taken.length = 9)
    (hstart : taken.head? = some false) (hphase : (sampler s).phase = 0) :
    Resting divisor (s.step divisor true) true ∧
      ∃ r, bits r = taken ++ [true] ∧ pending (s.step divisor true) = [r] := by
  have hbits : bits (s.step divisor true).rxdShiftReg = taken ++ [true] := by
    rw [h.bits_step true, if_pos hphase, hlen]
    rfl
  have hquiet : (s.step divisor true).rxInProcess = false := by
    rw [rxInProcess_bits, hbits, List.headD_eq_head?_getD, List.head?_append, hstart]
    rfl
  have hbefore : (s.step divisor true).delayedRxInProcess = true := h.rxInProcess
  refine ⟨⟨paced_step divisor s true, by simp [RxLine.step, RxLine.rxdFalling], hquiet, rfl⟩,
    _, hbits, ?_⟩
  simp [pending, RxLine.gotNewChar, hquiet, hbefore]

/-! ## Frames -/

/-- The falling edge and the clock behind it, in which the shift register is set. -/
theorem Resting.falls (hdiv : divisor ≠ 0) (h : Resting divisor s true) :
    Receiving divisor (listen divisor s [false, false]) [] ∧
      arrivals divisor s [false, false] = pending s ∧
      sampler (listen divisor s [false, false]) = ⟨centre divisor - 2, false⟩ := by
  have hlevel : s.delayedSyncRxd2 = true := by rw [← h.paced.level]; exact h.level
  have hreg : (s.step divisor false).rxdShiftReg = s.rxdShiftReg := by
    simp [RxLine.step, RxLine.sampleEnable, h.idle, h.quiet]
  have hquiet : (s.step divisor false).rxInProcess = false := by
    rw [RxLine.rxInProcess, hreg]
    exact h.quiet
  have hstart : (s.step divisor false).doStartRx = true := by
    simp [RxLine.step, RxLine.rxdFalling, h.quiet, h.level]
  have hbefore : (s.step divisor false).delayedRxInProcess = false := h.quiet
  have hlow : (s.step divisor false).delayedSyncRxd1 = false := rfl
  have hpaced := paced_step divisor s false
  have hfirst : sampler (s.step divisor false) = ⟨centre divisor - 1, false⟩ := by
    rw [sampler_step hdiv h.paced, Sampler.next]
    simp [sampler, hlevel]
  have hsecond : sampler (listen divisor s [false, false]) = ⟨centre divisor - 2, false⟩ := by
    rw [listen_cons, listen_cons, listen_nil, sampler_step hdiv hpaced, hfirst]
    simp [Sampler.next, centre]
  refine ⟨⟨paced_step divisor _ false, ?_, by simp, ?_⟩, ?_, hsecond⟩
  · simp only [listen_cons, listen_nil]
    rw [RxLine.step, RxLine.rxdFalling, hlow]
    simp
  · simp only [listen_cons, listen_nil]
    rw [RxLine.step, hstart, if_pos rfl, bits_allOnes]
    rfl
  · simp [pending, RxLine.gotNewChar, hbefore]

/-- The start bit. -/
theorem Resting.starts (hdiv : divisor ≠ 0) (h : Resting divisor s true) {d : Nat}
    (hshort : centre divisor < d) (hlong : d < centre divisor + period divisor) :
    Receiving divisor (listen divisor s (List.replicate d false)) [false] ∧
      arrivals divisor s (List.replicate d false) = pending s ∧
      sampler (listen divisor s (List.replicate d false)) =
        behind (period divisor) (centre divisor) [d] false := by
  have htwo : 2 ≤ centre divisor := by rw [centre]; omega
  obtain ⟨n, rfl⟩ : ∃ n, d = n + 2 := ⟨d - 2, by omega⟩
  obtain ⟨hfalls, harrive, hsampler⟩ := h.falls hdiv
  obtain ⟨hrun, hsamples⟩ := steady_once (T := period divisor) (c := centre divisor) (v := false)
    (n := n) (o := centre divisor - 2) (by omega) (by omega)
  rw [← hsampler] at hrun hsamples
  obtain ⟨hreceiving, hnone, hafter⟩ := receiving_run hdiv hfalls hsamples (by simp)
  have hsplit : List.replicate (n + 2) false = [false, false] ++ List.replicate n false := rfl
  have hbehind : (sampler (listen divisor s [false, false])).run (period divisor) (centre divisor)
      (List.replicate n false) = behind (period divisor) (centre divisor) [n + 2] false := by
    rw [hrun, behind, Sampler.mk.injEq]
    simp only [List.length_singleton, List.sum_singleton, Nat.one_mul, and_true]
    omega
  rw [hsplit, listen_append, arrivals_append, harrive, hnone, List.append_nil, hafter]
  exact ⟨hreceiving, rfl, hbehind⟩

/-- The stop bit. -/
theorem Receiving.ends (hdiv : divisor ≠ 0) (h : Receiving divisor s taken)
    (hlen : taken.length = 9) (hstart : taken.head? = some false) {d : Nat}
    (hstop : (sampler s).samples (period divisor) (centre divisor) (List.replicate d true) =
      [true]) :
    Resting divisor (listen divisor s (List.replicate d true)) true ∧
      ∃ r, bits r = taken ++ [true] ∧
        arrivals divisor s (List.replicate d true) ++
          pending (listen divisor s (List.replicate d true)) = [r] := by
  obtain ⟨m, n, rfl, hbefore, hphase⟩ := samples_once hstop
  have htaken : (taken ++ []).length < 10 := by simp [hlen]
  obtain ⟨hreceiving, hnone, hrun⟩ := receiving_run hdiv h hbefore htaken
  rw [List.append_nil] at hreceiving
  rw [← hrun] at hphase
  obtain ⟨hresting, r, hr, hpending⟩ := hreceiving.complete hlen hstart hphase
  obtain ⟨hrest, harrive⟩ := resting_run hresting n
  have hsplit : List.replicate (m + (n + 1)) true =
      List.replicate m true ++ true :: List.replicate n true := by
    rw [← List.replicate_append_replicate, List.replicate_succ]
  rw [hsplit, listen_append, arrivals_append, listen_cons, arrivals_cons, hnone,
    hreceiving.none_pending, List.nil_append, List.nil_append, harrive, hpending]
  exact ⟨hrest, r, hr, rfl⟩

/-- A frame in step with the baud counter is received as it was loaded. -/
theorem frame_received (hdiv : divisor ≠ 0) (h : Resting divisor s true) {ds : List Nat}
    (hlen : ds.length = 10) (hok : InStep (period divisor) (centre divisor) ds) (b : Byte) :
    Resting divisor (listen divisor s (frameWave ds b)) true ∧
      arrivals divisor s (frameWave ds b) ++ pending (listen divisor s (frameWave ds b)) =
        pending s ++ [txLoadVal b] := by
  obtain ⟨d₀, mid, d₉, rfl⟩ : ∃ d₀ mid d₉, ds = d₀ :: mid ++ [d₉] := by
    cases ds with
    | nil => cases hlen
    | cons d₀ l =>
      obtain rfl | ⟨mid, d₉, rfl⟩ := List.eq_nil_or_concat' l
      · cases hlen
      · exact ⟨d₀, mid, d₉, rfl⟩
  have hmid : mid.length = 8 := by simpa using hlen
  have hdata : ((List.range 8).map b.getLsbD).length = mid.length := by simp [hmid]
  have hwave : frameWave (d₀ :: mid ++ [d₉]) b =
      List.replicate d₀ false ++ (wave (((List.range 8).map b.getLsbD).zip mid) ++
        List.replicate d₉ true) := by
    rw [frameWave, frameBits, List.cons_append, List.cons_append, List.zip_cons_cons, wave_cons,
      wave_zip_append hdata, List.zip_cons_cons, wave_cons, List.zip_nil_left, wave_nil,
      List.append_nil]
  obtain ⟨hshort, hlong⟩ := hok [d₀] ⟨[], mid ++ [d₉], rfl⟩ (by simp)
  obtain ⟨hstart, hbefore, hbehind⟩ := h.starts hdiv (d := d₀) (by simpa using hshort)
    (by simpa using hlong)
  have hfirst : InStep (period divisor) (centre divisor) ([d₀] ++ mid) := fun l hl =>
    hok l (hl.trans ⟨[], [d₉], by simp⟩)
  have hcentre : 0 < centre divisor := by rw [centre]; omega
  obtain ⟨hsamples, last, hlast, hsuffix, hrun⟩ := sample_wave (u := false) (by simp)
    hcentre hfirst hdata
  rw [← hbehind] at hsamples hrun
  obtain ⟨hreceiving, hnone, hafter⟩ := receiving_run hdiv hstart hsamples (by simp)
  have hend : InStep (period divisor) (centre divisor) (last ++ [d₉]) := by
    obtain ⟨front, hfront⟩ := hsuffix
    have hwhole : front ++ (last ++ [d₉]) ++ [] = d₀ :: mid ++ [d₉] := by
      rw [List.append_nil, ← List.append_assoc, hfront]
      rfl
    exact fun l hl => hok l (hl.trans ⟨front, [], hwhole⟩)
  obtain ⟨-, hstop⟩ := sample_bit (v := true) hlast hcentre hend
  rw [← hrun, ← hafter] at hstop
  obtain ⟨hresting, r, hr, hlater⟩ := hreceiving.ends hdiv (by simp) rfl hstop
  have hword : r = txLoadVal b := by
    apply bits_injective
    rw [hr, bits_txLoadVal]
    rfl
  rw [hwave, listen_append, listen_append, arrivals_append, arrivals_append, hbefore, hnone,
    List.nil_append, List.append_assoc, hlater, hword]
  exact ⟨hresting, rfl⟩

/-- Every word on the line arrives, in order and once. -/
theorem line_received (hdiv : divisor ≠ 0) {line : List Bool} {bs : List Byte}
    (hline : Sends (InStep (period divisor) (centre divisor)) line bs)
    (h : Resting divisor s true) :
    Resting divisor (listen divisor s line) true ∧
      arrivals divisor s line ++ pending (listen divisor s line) =
        pending s ++ bs.map txLoadVal := by
  induction hline generalizing s with
  | rest => exact ⟨h, by simp⟩
  | idle _ ih =>
    obtain ⟨hnext, hnone⟩ := h.step id
    obtain ⟨hrest, harrive⟩ := ih hnext
    rw [listen_cons, arrivals_cons, List.append_assoc, harrive, hnone]
    exact ⟨hrest, rfl⟩
  | frame hlen hok _ ih =>
    obtain ⟨hnext, hframe⟩ := frame_received hdiv h hlen hok _
    obtain ⟨hrest, harrive⟩ := ih hnext
    rw [listen_append, arrivals_append, List.append_assoc, harrive, ← List.append_assoc, hframe,
      List.append_assoc]
    exact ⟨hrest, rfl⟩

theorem resting_reset (divisor : Divisor) : Resting divisor RxLine.reset false :=
  ⟨⟨by simp [RxLine.reset], rfl⟩, rfl, rfl, rfl⟩

/-- The receiver from reset: the synchronizer shows low levels for some clocks and then the
line at rest; from then on every word on the line arrives, in order and once. -/
theorem words_received (hdiv : divisor ≠ 0) {line : List Bool} {bs : List Byte}
    (hline : Sends (InStep (period divisor) (centre divisor)) line bs) (n : Nat) :
    arrivals divisor .reset (List.replicate n false ++ true :: line) ++
      pending (listen divisor .reset (List.replicate n false ++ true :: line)) =
        bs.map txLoadVal := by
  obtain ⟨hlow, hbefore⟩ := resting_run (resting_reset divisor) n
  obtain ⟨hhigh, hnone⟩ := hlow.step fun h => (by cases h)
  obtain ⟨-, harrive⟩ := line_received hdiv hline hhigh
  rw [listen_append, arrivals_append, listen_cons, arrivals_cons, List.append_assoc,
    List.append_assoc, harrive, ← List.append_assoc, hbefore, hnone]
  rfl

/-- A transmitter with nearly the same clock stays in step, its bit times up to 4.8 percent
off those of the synthesized divisor. -/
theorem drifting_words_received {line : List Bool} {bs : List Byte}
    (hline : Sends (fun ds => ∀ d ∈ ds, 414 ≤ d ∧ d ≤ 456) line bs) (n : Nat) :
    arrivals divisorConstant .reset (List.replicate n false ++ true :: line) ++
      pending (listen divisorConstant .reset (List.replicate n false ++ true :: line)) =
        bs.map txLoadVal := by
  have hstep : ∀ ds : List Nat, ds.length = 8 + 2 → (∀ d ∈ ds, 414 ≤ d ∧ d ≤ 456) →
      InStep (period divisorConstant) (centre divisorConstant) ds := by
    intro ds hlen hds
    have hnear : ∀ d ∈ ds, 435 ≤ d + 21 ∧ d ≤ 435 + 21 := by
      intro d hd
      have := hds d hd
      omega
    exact inStep_of_near (T := period divisorConstant) (m := 10) hlen.le hnear (by decide)
      (by decide)
  exact words_received (by decide) (hline.mono hstep) n

/-- A slow transmitter sends the letter 'K'. -/
theorem drifting_words_received_K :
    arrivals divisorConstant .reset
        (List.replicate 2 false ++ true :: frameWave (List.replicate 10 456) 0x4B#8) ++
      pending (listen divisorConstant .reset
        (List.replicate 2 false ++ true :: frameWave (List.replicate 10 456) 0x4B#8)) =
      [txLoadVal 0x4B] := by
  have hframe : Sends (fun ds => ∀ d ∈ ds, 414 ≤ d ∧ d ≤ 456)
      (frameWave (List.replicate 10 456) 0x4B#8 ++ []) [0x4B#8] :=
    .frame rfl (by simp) .rest
  rw [List.append_nil] at hframe
  exact drifting_words_received hframe 2

/-! ## From one UART to another -/

theorem inStep_bitTimes (hdiv : 3 ≤ divisor.toNat) :
    InStep (period divisor) (centre divisor) (bitTimes divisor) := by
  apply inStep_of_late (e := 2)
  · simp [bitTimes, period]
  · simp [bitTimes, period]
    omega
  · rw [centre, period]
    omega
  · rw [centre]
    omega

theorem divisor_pos (hdiv : 3 ≤ divisor.toNat) : divisor ≠ 0 := by
  rintro rfl
  simp at hdiv

theorem inStep_period (hdiv : 3 ≤ divisor.toNat) (ds : List Nat) (_ : ds.length = 8 + 2)
    (hds : ds = bitTimes divisor) : InStep (period divisor) (centre divisor) ds :=
  hds ▸ inStep_bitTimes hdiv

/-- At any time the words that have arrived are the first of those written. -/
theorem words_underway (hdiv : 3 ≤ divisor.toNat) {is : List (Cycle × Bool)}
    (hpolite : Polite divisor start is) (n : Nat) :
    arrivals divisor .reset (List.replicate n false ++ true :: txds divisor start is) <+:
      (sent is).map txLoadVal := by
  obtain ⟨rest, -, hsends⟩ := frames_underway (divisor_pos hdiv) hpolite
  have harrive := words_received (divisor_pos hdiv) (hsends.mono (inStep_period hdiv)) n
  rw [← List.cons_append, ← List.append_assoc, arrivals_append, List.append_assoc] at harrive
  exact ⟨_, harrive⟩

theorem words_complete (hdiv : 3 ≤ divisor.toNat) {early late : List (Cycle × Bool)}
    (hpolite : Polite divisor start (early ++ late)) (hquiet : sent late = [])
    (hlong : 2 * frameClocks divisor + 3 ≤ late.length) (n : Nat) :
    arrivals divisor .reset
        (List.replicate n false ++ true :: txds divisor start (early ++ late)) ++
      pending (listen divisor .reset
        (List.replicate n false ++ true :: txds divisor start (early ++ late))) =
      (sent (early ++ late)).map txLoadVal := by
  have hsends := frames_complete (divisor_pos hdiv) hpolite hquiet hlong
  exact words_received (divisor_pos hdiv) (hsends.mono (inStep_period hdiv)) n

/-- A receiver on the line of a transmitter with the same divisor, the two switched on
together or the transmitter later: at any time what has arrived is the beginning of what
was written to TXDATA, and all of it once the transmitter has had the time to send it. -/
theorem transmitted_received (hdiv : 3 ≤ divisor.toNat) {is : List (Cycle × Bool)}
    (hpolite : Polite divisor start is) (n : Nat) :
    arrivals divisor .reset (List.replicate n false ++ true :: txds divisor start is) <+:
      (sent is).map txLoadVal ∧
    (∀ early late, is = early ++ late → sent late = [] →
      2 * frameClocks divisor + 3 ≤ late.length →
      arrivals divisor .reset (List.replicate n false ++ true :: txds divisor start is) ++
        pending (listen divisor .reset (List.replicate n false ++ true :: txds divisor start is)) =
          (sent is).map txLoadVal) := by
  refine ⟨words_underway hdiv hpolite n, ?_⟩
  rintro early late rfl hquiet hlong
  exact words_complete hdiv hpolite hquiet hlong n

theorem transmitted_received_oneByte :
    arrivals divisorConstant .reset
        (List.replicate 2 false ++ true :: txds divisorConstant start (oneByte 0x41 8707)) ++
      pending (listen divisorConstant .reset
        (List.replicate 2 false ++ true :: txds divisorConstant start (oneByte 0x41 8707))) =
      [txLoadVal 0x41] := by
  have hwords := (transmitted_received (by decide)
    (polite_oneByte divisorConstant 0x41 8707) 2).2 [(.first (.write 1 0x41), true)]
    (List.replicate 8707 (.idle, true)) rfl (sent_idle 8707)
    (by rw [List.length_replicate]; decide)
  rwa [sent_oneByte] at hwords

end UartRx
