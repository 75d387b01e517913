import NiosMenu.Board
import NiosMenu.UartRate

/-!
# `readUart` in time

From the clock in which a byte comes to RXDATA, a `readUart` call takes five accesses
until it has read and compared it. If no two of them are too far apart, these are over
before the next byte comes, so that nothing on the line is lost and the call returns at
the first 'K'.
-/
namespace InTime

open Firmware Reactive Networked Receive SerialLine Uart UartRx UartRegs UartRate Board

/-- At most `W` clocks lie between two accesses, and the console has room. -/
def prompt (W waited : Nat) : Board.Move → Bool
  | .wait _ _ => decide (waited < W)
  | .own (.jtagControl v) _ => wspace v
  | .own _ _ => true

def promptStep (W : Nat) (s : System (List Stmt)) (m : Board.Move) : Option (System (List Stmt)) :=
  if prompt W s.waited m then boardStep callStep s m else none

theorem promptStep_board {W : Nat} {s t : System (List Stmt)} {m : Board.Move}
    (h : promptStep W s m = some t) :
    prompt W s.waited m = true ∧ boardStep callStep s m = some t := by
  rwa [promptStep, Option.ite_none_right_eq_some] at h

/-! ## The accesses left -/

/-- The accesses until a byte held in RXDATA or read from it has been compared. -/
def work (full : Bool) : Stage → Nat
  | .polling => if full then 5 else 0
  | .ready => 4
  | .printing _ => 3
  | .printed _ => 2
  | .checking _ => 1
  | .returned => 0

/-- Only a call that polls or is about to read leaves a byte in RXDATA. -/
def fits (full : Bool) : Stage → Bool
  | .polling => true
  | .ready => full
  | _ => !full

/-- What an event sees. -/
def sees (full : Bool) : Event → Bool
  | .status v => rrdy v == full
  | .jtagControl v => wspace v
  | _ => true

/-- Every access brings the comparison nearer. -/
theorem work_next {full : Bool} {st st' : Stage} {e : Event} (h : st.next e = some st')
    (hfits : fits full st = true) (hsees : sees full e = true) :
    work (!(cycle e).rxdata && full) st' ≤ work full st - 1 ∧
      fits (!(cycle e).rxdata && full) st' = true := by
  cases st <;> cases e <;> simp only [Stage.next, reduceCtorEq, Option.some.injEq,
    Option.ite_none_right_eq_some] at h
  case polling.status v =>
    have hv : rrdy v = full := by simpa [sees] using hsees
    subst h
    cases full <;> simp [hv, cycle, Cycle.rxdata, work, fits]
  case ready.rxdata v =>
    subst h
    simp [cycle, Cycle.rxdata, work, fits]
  case printing.jtagControl check v =>
    have hnone : full = false := by simpa [fits] using hfits
    have hv : wspace v = true := hsees
    subst h
    simp [hnone, hv, work, fits]
  case printed.act check a =>
    have hnone : full = false := by simpa [fits] using hfits
    obtain ⟨-, rfl⟩ := h
    simp [hnone, work, fits]
  case checking.compare check c =>
    have hnone : full = false := by simpa [fits] using hfits
    obtain ⟨-, rfl⟩ := h
    split <;> simp [hnone, work, fits]

/-- A call that has nothing to do waits for the next byte. -/
theorem work_zero {full : Bool} {st : Stage} (h : work full st = 0) (hrunning : st ≠ .returned) :
    st = .polling ∧ full = false := by
  cases st <;> simp [work] at h hrunning ⊢
  exact h

/-- The byte read and not yet compared, or the 'K' at which the call has returned. -/
def latest : Stage → List Byte
  | .printing check | .printed check | .checking check => [check]
  | .returned => [letterK]
  | .polling | .ready => []

/-- No byte before that one is a 'K'. -/
def Found (st : Stage) (bs : List Byte) : Prop :=
  ∃ before, bs = before ++ latest st ∧ letterK ∉ before

theorem found_next {st st' : Stage} {e : Event} {bs : List Byte} (h : st.next e = some st')
    (hfound : Found st bs) : Found st' (bs ++ bytesRead [e]) := by
  obtain ⟨before, rfl, hnone⟩ := hfound
  cases st <;> cases e <;> simp only [Stage.next, reduceCtorEq, Option.some.injEq,
    Option.ite_none_right_eq_some] at h
  case polling.status v =>
    refine ⟨before, ?_, hnone⟩
    cases hv : rrdy v <;> simp [← h, hv, latest, bytesRead]
  case ready.rxdata v => exact ⟨before, by simp [← h, latest, bytesRead], hnone⟩
  case printing.jtagControl check v =>
    refine ⟨before, ?_, hnone⟩
    cases hv : wspace v <;> simp [← h, hv, latest, bytesRead]
  case printed.act check a => exact ⟨before, by simp [← h.2, latest, bytesRead], hnone⟩
  case checking.compare check c =>
    obtain ⟨-, rfl⟩ := h
    by_cases hK : check = letterK
    · exact ⟨before, by simp [hK, latest, bytesRead], hnone⟩
    · refine ⟨before ++ [check], by simp [hK, latest, bytesRead], ?_⟩
      simp [hnone, Ne.symm hK]

/-! ## The deadline -/

/-- The accesses left fit into the clocks before the next byte. -/
structure OnTime (W : Nat) (st : Stage) (s : System (List Stmt)) : Prop where
  waited : s.waited ≤ W
  status : NoStatusWrite s.slave
  calm : Calm divisorConstant s.slave.uart.line
  whole : s.slave.uart.flags.rxOverrun = false
  stage : fits s.slave.uart.flags.rxCharReady st = true
  time : work s.slave.uart.flags.rxCharReady st * (W + 1) ≤
    due divisorConstant s.slave.uart.line + s.waited

/-- A byte finds the call waiting for it. -/
theorem OnTime.idle {W : Nat} {st : Stage} {s : System (List Stmt)} (h : OnTime W st s)
    (hrunning : st ≠ .returned) (hnew : s.slave.uart.line.gotNewChar = true) :
    st = .polling ∧ s.slave.uart.flags.rxCharReady = false := by
  apply work_zero ?_ hrunning
  have htime := h.time
  have hwaited := h.waited
  rw [due_zero hnew, Nat.zero_add] at htime
  by_contra hpos
  have hone : 1 * (W + 1) ≤ work s.slave.uart.flags.rxCharReady st * (W + 1) :=
    Nat.mul_le_mul_right _ (Nat.one_le_iff_ne_zero.mpr hpos)
  omega

/-- The stage behind a move. -/
def follow (st : Stage) : Option Event → Option Stage
  | none => some st
  | some e => st.next e

theorem stage_step {st : Stage} {s t : System (List Stmt)} {m : Board.Move}
    (hcode : s.program = st.code) (h : boardStep callStep s m = some t) :
    ∃ st', follow st m.event = some st' ∧ t.program = st'.code := by
  cases m with
  | wait again rxd =>
    cases h
    exact ⟨st, rfl, hcode⟩
  | own e rxd =>
    obtain ⟨-, p, hp, rfl⟩ := boardStep_own h
    rw [hcode, callStep_code] at hp
    obtain ⟨st', hst, rfl⟩ := Option.map_eq_some_iff.mp hp
    exact ⟨st', hst, rfl⟩

theorem sees_own {W : Nat} {s t : System (List Stmt)} {e : Event} {rxd : Bool}
    (h : promptStep W s (.own e rxd) = some t) :
    sees s.slave.uart.flags.rxCharReady e = true := by
  obtain ⟨hprompt, hm⟩ := promptStep_board h
  obtain ⟨hanswers, -⟩ := boardStep_own hm
  cases e with
  | status v =>
    have hv : v = s.slave.uart.statusReg.setWidth 32 := by simpa [answers] using hanswers
    simp [sees, hv, rrdy_statusReg]
  | jtagControl v => exact hprompt
  | _ => rfl

/-- While the call waits, a move leaves it waiting. -/
theorem follow_polling {W : Nat} {st : Stage} {s t : System (List Stmt)} {m : Board.Move}
    (h : promptStep W s m = some t) (hempty : s.slave.uart.flags.rxCharReady = false)
    (hfollow : follow .polling m.event = some st) : st = .polling ∧ m.clock.1.rxdata = false := by
  cases m with
  | wait again rxd =>
    cases hfollow
    cases again <;> exact ⟨rfl, rfl⟩
  | own e rxd =>
    have hsees := sees_own h
    cases e <;> simp only [follow, Move.event, Stage.next, reduceCtorEq, Option.some.injEq]
      at hfollow
    case status v =>
      have hv : rrdy v = false := by simpa [sees, hempty] using hsees
      rw [hv] at hfollow
      exact ⟨hfollow.symm, rfl⟩

/-- The clocks of the accesses left, behind one of them or one clock without it. -/
theorem time_step {W : Nat} {st st' : Stage} {s t : System (List Stmt)} {m : Board.Move}
    (h : OnTime W st s) (hm : promptStep W s m = some t)
    (hfollow : follow st m.event = some st') :
    t.waited ≤ W ∧
      work (!m.clock.1.rxdata && s.slave.uart.flags.rxCharReady) st' * (W + 1) ≤
        due divisorConstant s.slave.uart.line - 1 + t.waited ∧
      fits (!m.clock.1.rxdata && s.slave.uart.flags.rxCharReady) st' = true := by
  have htime := h.time
  have hwaited := h.waited
  obtain ⟨hprompt, hboard⟩ := promptStep_board hm
  cases m with
  | wait again rxd =>
    have hread : (Move.wait again rxd).clock.1.rxdata = false := by cases again <;> rfl
    have hless : s.waited < W := of_decide_eq_true hprompt
    cases hboard
    cases hfollow
    rw [hread, Bool.not_false, Bool.true_and]
    exact ⟨hless, by simp only; omega, h.stage⟩
  | own e rxd =>
    obtain ⟨-, p, -, rfl⟩ := boardStep_own hboard
    obtain ⟨hless, hfits⟩ := work_next hfollow h.stage (sees_own hm)
    refine ⟨Nat.zero_le W, ?_, hfits⟩
    have hmul := Nat.mul_le_mul_right (W + 1) hless
    rw [Nat.sub_mul, Nat.one_mul] at hmul
    simp only [Move.clock]
    omega

theorem onTime_step {W : Nat} {st st' : Stage} {s t : System (List Stmt)} {m : Board.Move}
    (hW : 5 * (W + 1) < gap divisorConstant) (h : OnTime W st s) (hrunning : st ≠ .returned)
    (hm : promptStep W s m = some t) (hfollow : follow st m.event = some st') :
    OnTime W st' t := by
  have hslave := slave_step (promptStep_board hm).2
  have hkeeps := keeps_clock m
  have hdiv : divisorConstant ≠ 0 := by decide
  obtain ⟨hchar, hover⟩ := @flags_step divisorConstant _ _ h.status hkeeps
  rw [← hslave] at hchar hover
  have hline : t.slave.uart.line = s.slave.uart.line.step divisorConstant m.clock.2 := by
    rw [hslave]
    rfl
  have hstatus : NoStatusWrite t.slave := hslave ▸ noStatusWrite_step h.status hkeeps
  have hcalm : Calm divisorConstant t.slave.uart.line := hline ▸ calm_step _ _ _
  obtain ⟨hwaited, htime, hfits⟩ := time_step h hm hfollow
  cases hnew : s.slave.uart.line.gotNewChar with
  | false =>
    rw [hnew, Bool.false_or] at hchar
    rw [hnew, Bool.false_and, Bool.false_or, h.whole] at hover
    rw [← hchar] at htime hfits
    have hdue := due_step hdiv h.calm m.clock.2
    rw [← hline] at hdue
    exact ⟨hwaited, hstatus, hcalm, hover, hfits, by omega⟩
  | true =>
    -- a byte comes to RXDATA while the call waits for one
    obtain ⟨rfl, hempty⟩ := h.idle hrunning hnew
    obtain ⟨rfl, hread⟩ := follow_polling hm hempty hfollow
    rw [hnew, hread] at hchar
    rw [hempty, Bool.and_false, Bool.false_or, h.whole] at hover
    have hdue := due_pending hdiv h.calm hnew m.clock.2
    rw [← hline] at hdue
    refine ⟨hwaited, hstatus, hcalm, hover, rfl, ?_⟩
    rw [hchar]
    simp only [work, Bool.not_false, Bool.true_and, Bool.true_or, if_true]
    omega

/-! ## A whole call -/

/-- A call begins with a receiver that has lost nothing and with RXDATA empty. -/
structure Begins (W : Nat) (s : System (List Stmt)) : Prop where
  program : s.program = readUart
  waited : s.waited ≤ W
  status : NoStatusWrite s.slave
  calm : Calm divisorConstant s.slave.uart.line
  whole : s.slave.uart.flags.rxOverrun = false
  empty : s.slave.uart.flags.rxCharReady = false

variable {W : Nat} {s t : System (List Stmt)} {ms : List Board.Move}

theorem Begins.onTime (h : Begins W s) : OnTime W .polling s :=
  ⟨h.waited, h.status, h.calm, h.whole, rfl, by simp [h.empty, work]⟩

theorem Begins.watched (h : Begins W s) : Watched (id s.program) s.slave :=
  watched_written (by simp [h.program, readUart, Stmt.written]) h.status

/-- Without an overrun, the bytes read and the byte held are those that have arrived. -/
theorem Begins.read (h : Begins W s) (hrun : run (boardStep callStep) s ms = some t)
    (hwhole : t.slave.uart.flags.rxOverrun = false) :
    bytesRead (events ms) ++ held t.slave.uart =
      arrived divisorConstant s.slave (clocks ms) := by
  have hguarded := guarded_run (bodied_call _) h.watched hrun
  have hkept := register_kept h.status hguarded h.whole
  have hempty : held s.slave.uart = [] := by simp [held, h.empty]
  rw [← run_slave hrun, taken_run hrun, hempty, List.nil_append] at hkept
  have hall := hkept.whole hwhole
  rwa [toList_register] at hall

theorem arrived_snoc (divisor : Divisor) (u : Slave) (is : List (Cycle × Bool))
    (i : Cycle × Bool) :
    arrived divisor u is <+: arrived divisor u (is ++ [i]) := by
  rw [arrived, arrived, List.map_append, arrivals_append, List.map_append]
  exact List.prefix_append _ _

/-- A call so far. -/
structure Sofar (W : Nat) (s : System (List Stmt)) (ms : List Board.Move)
    (t : System (List Stmt)) : Prop where
  board : run (boardStep callStep) s ms = some t
  stage : ∃ st, t.program = Stage.code st ∧ (st ≠ .returned → OnTime W st t) ∧
    Found st (bytesRead (events ms))
  front : bytesRead (events ms) <+: arrived divisorConstant s.slave (clocks ms)

theorem Begins.sofar (h : Begins W s) : Sofar W s [] s :=
  ⟨rfl, ⟨.polling, h.program, fun _ => h.onTime, [], rfl, by simp⟩, List.nil_prefix⟩

theorem bytesRead_snoc (ms : List Board.Move) (m : Board.Move) :
    bytesRead (events (ms ++ [m])) = bytesRead (events ms) ++ bytesRead m.event.toList := by
  have hone : events [m] = m.event.toList := by cases m <;> rfl
  rw [bytesRead, bytesRead, bytesRead, ← List.filterMap_append, ← hone, events, events, events,
    ← List.filterMap_append]

theorem found_follow {st st' : Stage} {e : Option Event} {bs : List Byte}
    (h : follow st e = some st') (hfound : Found st bs) : Found st' (bs ++ bytesRead e.toList) := by
  cases e with
  | none =>
    obtain rfl : st = st' := Option.some.inj h
    simpa [bytesRead] using hfound
  | some e => exact found_next h hfound

/-- A call that has returned makes no access. -/
theorem follow_returned {st : Stage} {e : Option Event} (h : follow .returned e = some st) :
    st = .returned ∧ e = none := by
  cases e with
  | none => exact ⟨(Option.some.inj h).symm, rfl⟩
  | some e => cases e <;> cases h

theorem sofar_step (hW : 5 * (W + 1) < gap divisorConstant) (hbegins : Begins W s)
    {u : System (List Stmt)} {m : Board.Move} (h : Sofar W s ms t)
    (hm : promptStep W t m = some u) : Sofar W s (ms ++ [m]) u := by
  obtain ⟨hrun, ⟨st, hcode, htime, hfound⟩, hfront⟩ := h
  have hboard := (promptStep_board hm).2
  have hnext := run_snoc hrun hboard
  obtain ⟨st', hfollow, hcode'⟩ := stage_step hcode hboard
  have hfound' := found_follow hfollow hfound
  rw [← bytesRead_snoc] at hfound'
  by_cases hreturned : st = .returned
  · subst hreturned
    obtain ⟨rfl, hnone⟩ := follow_returned hfollow
    refine ⟨hnext, ⟨.returned, hcode', fun h => absurd rfl h, hfound'⟩, ?_⟩
    rw [bytesRead_snoc, hnone]
    simpa [bytesRead, Board.clocks] using hfront.trans (arrived_snoc _ _ _ m.clock)
  · have htime' := onTime_step hW (htime hreturned) hreturned hm hfollow
    refine ⟨hnext, ⟨st', hcode', fun _ => htime', hfound'⟩, ?_⟩
    exact ⟨_, hbegins.read hnext htime'.whole⟩

/-- The bytes that are complete on the line, read or not. -/
def heard (s : System σ) (ms : List Board.Move) : List Byte :=
  (arrivals divisorConstant s.slave.uart.line ((Board.clocks ms).map Prod.snd) ++
    pending (listen divisorConstant s.slave.uart.line ((Board.clocks ms).map Prod.snd))).map byteOf

/-- The call returns at the first 'K' of some bytes. Until then they have all been read or are
still held, and none but the last one can be a 'K'. -/
def Finds (bs : List Byte) (ms : List Board.Move) (t : System (List Stmt)) : Prop :=
  (t.program ≠ [] → t.slave.uart.flags.rxOverrun = false ∧ letterK ∉ bs.dropLast ∧
    bytesRead (events ms) ++ held t.slave.uart ++ (pending t.slave.uart.line).map byteOf = bs) ∧
  (t.program = [] → ∃ before after, bs = before ++ letterK :: after ∧ letterK ∉ before ∧
    bytesRead (events ms) = before ++ [letterK])

/-- At most one byte has been completed and not yet compared. -/
theorem OnTime.one_left {st : Stage} (h : OnTime W st s) (hrunning : st ≠ .returned) :
    (latest st ++ held s.slave.uart ++ (pending s.slave.uart.line).map byteOf).length ≤ 1 := by
  have hfits := h.stage
  cases hnew : s.slave.uart.line.gotNewChar with
  | true =>
    obtain ⟨rfl, hempty⟩ := h.idle hrunning hnew
    simp [latest, held, hempty, pending, hnew]
  | false =>
    cases hfull : s.slave.uart.flags.rxCharReady with
    | false => cases st <;> simp [latest, held, hfull, pending, hnew]
    | true =>
      rw [hfull] at hfits
      cases st <;> simp [fits] at hfits <;> simp [latest, held, hfull, pending, hnew]

theorem finds_sofar (h : Sofar W s ms t) (hbegins : Begins W s) : Finds (heard s ms) ms t := by
  obtain ⟨hrun, ⟨st, hcode, htime, before, hread, hnone⟩, hfront⟩ := h
  have hline : t.slave.uart.line =
      listen divisorConstant s.slave.uart.line ((Board.clocks ms).map Prod.snd) := by
    rw [run_slave hrun, line_run]
  have hheard : heard s ms = arrived divisorConstant s.slave (Board.clocks ms) ++
      (pending t.slave.uart.line).map byteOf := by
    rw [heard, List.map_append, arrived, hline]
  constructor
  · intro hrunning
    have hst : st ≠ .returned := fun h => hrunning (by rw [hcode, code_nil.mpr h])
    have hone := (htime hst).one_left hst
    have hwhole := (htime hst).whole
    have hall : bytesRead (events ms) ++ held t.slave.uart ++
        (pending t.slave.uart.line).map byteOf = heard s ms := by
      rw [hheard, hbegins.read hrun hwhole]
    refine ⟨hwhole, ?_, hall⟩
    rw [← hall, hread, List.append_assoc, List.append_assoc, ← List.append_assoc (latest st)]
    obtain hnil | ⟨b, hb⟩ : _ = [] ∨ ∃ b, _ = [b] := by
      rw [← List.length_eq_one_iff, ← List.length_eq_zero_iff]
      exact Nat.le_one_iff_eq_zero_or_eq_one.mp hone
    · rw [hnil, List.append_nil]
      exact fun hmem => hnone (List.dropLast_subset _ hmem)
    · rwa [hb, List.dropLast_concat]
  · intro hreturned
    rw [hcode, code_nil] at hreturned
    subst hreturned
    obtain ⟨after, hafter⟩ := hfront
    refine ⟨before, after ++ (pending t.slave.uart.line).map byteOf, ?_, hnone, hread⟩
    rw [hheard, ← hafter, hread]
    simp [latest]

/-- A `readUart` call that begins with RXDATA empty, at most 437 clocks between two of its
accesses and a console that has room: on any line it loses nothing and returns at the first 'K',
and where the line is at rest at first, what it hears are the bytes sent. -/
theorem readUart_in_time (hW : W ≤ 437) (hbegins : Begins W s)
    (h : run (promptStep W) s ms = some t) :
    Finds (heard s ms) ms t ∧
    ∀ line bs, Resting divisorConstant s.slave.uart.line true →
      Sends (InStep (period divisorConstant) (centre divisorConstant)) line bs →
      (Board.clocks ms).map Prod.snd = line →
      heard s ms = (pending s.slave.uart.line).map byteOf ++ bs := by
  have hgap : 5 * (W + 1) < gap divisorConstant := by
    have hconst : gap divisorConstant = 2191 := by decide
    omega
  constructor
  · have hsofar := run_history (P := fun ms t => Sofar W s ms t)
      (fun _ _ _ _ hs hm => sofar_step hgap hbegins hs hm) hbegins.sofar h
    exact finds_sofar hsofar hbegins
  · rintro line bs hrest hline rfl
    rw [heard, (line_received (by decide) hline hrest).2, List.map_append, List.map_map]
    have hid : byteOf ∘ txLoadVal = id := funext byteOf_txLoadVal
    rw [hid, List.map_id]

/-- A call on a line at rest, behind a reset. -/
def atRest : System (List Stmt) :=
  ⟨readUart, 2, Uart.start.run divisorConstant [(.idle, false), (.idle, true)]⟩

def quiet : List Board.Move := [.own (.status 0x60) true, .wait true true]

theorem begins_atRest : Begins 437 atRest where
  program := rfl
  waited := by decide
  status := fun data h => by cases h
  calm := calm_step divisorConstant _ true
  whole := rfl
  empty := rfl

theorem readUart_in_time_atRest :
    ∃ t, run (promptStep 437) atRest quiet = some t ∧ Finds [] quiet t := by
  have hrun : run (promptStep 437) atRest quiet =
      some ⟨readUart, 1, atRest.slave.run divisorConstant (Board.clocks quiet)⟩ := by
    decide +kernel
  obtain ⟨hfinds, hline⟩ := readUart_in_time (by decide) begins_atRest hrun
  have hrest : Resting divisorConstant atRest.slave.uart.line true :=
    ⟨paced_step divisorConstant _ true, rfl, rfl, rfl⟩
  have hnone := hline [true, true] [] hrest (.idle (.idle .rest)) rfl
  rw [hnone] at hfinds
  exact ⟨_, hrun, hfinds⟩

end InTime
