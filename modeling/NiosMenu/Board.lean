import NiosMenu.Transmit
import NiosMenu.UartRegs

/-!
# The program and the UART on one bus

Every event of the program takes a clock of the UART, in which its access to the bus
begins, and any number of clocks may pass between two events. The pauses of the program
keep every write to TXDATA behind the end of the one before, so that the line carries
what the program writes, and RXDATA is read only after RRDY has been seen.
-/
namespace Board

open Firmware Reactive Networked Receive SerialLine Uart UartTx UartRx UartRegs
open Transmit (pace Tame Scripted usleepClocks)

/-- The clock of the bus in which an event begins. -/
def cycle : Event → Cycle
  | .act (.txdata d) => .first (.write 1 (d.setWidth 16))
  | .status _ => .first (.read 2)
  | .rxdata _ => .first (.read 0)
  | _ => .idle

/-- The program reads what the registers hold, and a pause ends when its time is over. -/
def answers (u : State) (waited : Nat) : Event → Bool
  | .status v => v == u.statusReg.setWidth 32
  | .rxdata v => v == u.line.rxData.setWidth 32
  | .act (.usleep us) => decide (usleepClocks * us ≤ waited)
  | _ => true

/-- The program, the clocks since its last event, and the UART. -/
structure System (σ : Type) where
  program : σ
  waited : Nat
  slave : Slave
  deriving DecidableEq, Repr

/-- An event of the program or a clock without one, which may prolong the last access,
with the synchronized level of rxd. -/
inductive Move where
  | own (e : Event) (rxd : Bool)
  | wait (again rxd : Bool)
  deriving DecidableEq, Repr

def Move.clock : Move → Cycle × Bool
  | .own e rxd => (cycle e, rxd)
  | .wait again rxd => (if again then .again else .idle, rxd)

def Move.event : Move → Option Event
  | .own e _ => some e
  | .wait _ _ => none

variable {σ : Type} {stp : σ → Event → Option σ} {todo : σ → List Stmt}

def boardStep (stp : σ → Event → Option σ) (s : System σ) (m : Move) : Option (System σ) :=
  match m with
  | .own e _ =>
    if answers s.slave.uart s.waited e then
      (stp s.program e).map fun p => ⟨p, 0, s.slave.step divisorConstant m.clock⟩
    else none
  | .wait _ _ => some ⟨s.program, s.waited + 1, s.slave.step divisorConstant m.clock⟩

/-- The events of the program and the clocks of the UART along some moves. -/
def events (ms : List Move) : List Event := ms.filterMap Move.event
def clocks (ms : List Move) : List (Cycle × Bool) := ms.map Move.clock

theorem clocks_append (early late : List Move) :
    clocks (early ++ late) = clocks early ++ clocks late :=
  List.map_append

theorem boardStep_own {s t : System σ} {e : Event} {rxd : Bool}
    (h : boardStep stp s (.own e rxd) = some t) :
    answers s.slave.uart s.waited e = true ∧ ∃ p, stp s.program e = some p ∧
      t = ⟨p, 0, s.slave.step divisorConstant (cycle e, rxd)⟩ := by
  simp only [boardStep, Option.ite_none_right_eq_some] at h
  obtain ⟨p, hp, ht⟩ := Option.map_eq_some_iff.mp h.2
  exact ⟨h.1, p, hp, ht.symm⟩

/-- A run of the board is a run of the program and one of the UART. -/
theorem run_program {s t : System σ} {ms : List Move} (h : run (boardStep stp) s ms = some t) :
    run stp s.program (events ms) = some t.program := by
  refine run_lift (f := System.program) (g := Move.event) ?_ h
  intro s m s' hm
  cases m with
  | wait again rxd =>
    cases hm
    rfl
  | own e rxd =>
    obtain ⟨-, p, hp, rfl⟩ := boardStep_own hm
    exact hp

theorem slave_step {s t : System σ} {m : Move} (h : boardStep stp s m = some t) :
    t.slave = s.slave.step divisorConstant m.clock := by
  cases m with
  | wait again rxd =>
    cases h
    rfl
  | own e rxd =>
    obtain ⟨-, p, -, rfl⟩ := boardStep_own h
    rfl

theorem run_slave {s t : System σ} {ms : List Move} (h : run (boardStep stp) s ms = some t) :
    t.slave = s.slave.run divisorConstant (clocks ms) := by
  induction ms generalizing s with
  | nil =>
    simp only [Reactive.run_nil, Option.some.injEq] at h
    rw [h]
    rfl
  | cons m ms ih =>
    obtain ⟨u, hu, ht⟩ := Option.bind_eq_some_iff.mp h
    rw [ih ht, slave_step hu]
    rfl

/-! ## Sending -/

theorem txdata_clock (m : Move) :
    m.clock.1.txdata.toList = AtStream.txBytes m.event.toList := by
  cases m with
  | wait again rxd => cases again <;> rfl
  | own e rxd =>
    cases e with
    | act a =>
      cases a with
      | txdata d =>
        have hlow : (d.setWidth 16).setWidth 8 = low d := by
          simp [low, BitVec.setWidth_setWidth_of_le]
        simp [Move.clock, Move.event, cycle, Cycle.txdata, AtStream.txBytes, AtStream.sent,
          accesses, hlow]
      | _ => rfl
    | _ => rfl

theorem events_cons (m : Move) (ms : List Move) :
    events (m :: ms) = m.event.toList ++ events ms := by
  cases m <;> rfl

theorem sent_clocks (ms : List Move) : sent (clocks ms) = AtStream.txBytes (events ms) := by
  induction ms with
  | nil => rfl
  | cons m ms ih =>
    rw [events_cons, Transmit.txBytes_append, ← ih, ← txdata_clock]
    exact sent_cons m.clock (clocks ms)

/-- What one event does to the pacing: a write is made where one may be, and further ones
may follow it only after a poll or a long pause. -/
theorem pace_step {ready : Bool} {s : Stmt} {e : Event} {l rest : List Stmt}
    (h : (pace ready (s :: rest)).isSome = true) (hs : micro s e = some l) :
    ∃ next, (pace next (l ++ rest)).isSome = true ∧
      ((∃ d, e = .act (.txdata d) ∧ ready = true ∧ next = false) ∨
        ((∀ d, e ≠ .act (.txdata d)) ∧ (next = true → ready = true ∨
          (∃ v, e = .status v ∧ trdy v = true) ∨ ∃ us, e = .act (.usleep us) ∧ 1000 ≤ us))) := by
  obtain ⟨a, rfl, rfl, rfl⟩ | ⟨v, rfl, rfl, rfl⟩ | ⟨v, rfl, rfl, rfl⟩ | ⟨v, rfl, rfl, rfl⟩ |
    ⟨c, rfl, rfl, rfl⟩ | ⟨c, v, rfl, rfl, rfl⟩ := micro_cases hs
  · cases a with
    | txdata d =>
      cases ready with
      | false => cases h
      | true => exact ⟨false, h, .inl ⟨d, rfl, rfl, rfl⟩⟩
    | usleep us =>
      refine ⟨ready || decide (1000 ≤ us), h, .inr ⟨by simp, fun hnext => ?_⟩⟩
      obtain hready | hlong := Bool.or_eq_true_iff.mp hnext
      · exact .inl hready
      · exact .inr (.inr ⟨us, rfl, of_decide_eq_true hlong⟩)
    | lcd a b => exact ⟨ready, h, .inr ⟨by simp, .inl⟩⟩
    | leds d => exact ⟨ready, h, .inr ⟨by simp, .inl⟩⟩
    | jtagData c => exact ⟨ready, h, .inr ⟨by simp, .inl⟩⟩
  · cases hv : trdy v with
    | false => exact ⟨ready, h, .inr ⟨by simp, .inl⟩⟩
    | true => exact ⟨true, h, .inr ⟨by simp, fun _ => .inr (.inl ⟨v, rfl, hv⟩)⟩⟩
  · refine ⟨ready, ?_, .inr ⟨by simp, .inl⟩⟩
    split <;> exact h
  · exact ⟨ready, h, .inr ⟨by simp, .inl⟩⟩
  · refine ⟨ready, ?_, .inr ⟨by simp, .inl⟩⟩
    split <;> exact h
  · refine ⟨ready, ?_, .inr ⟨by simp, .inl⟩⟩
    split <;> exact h

/-- The clocks after which nothing can be owed any more. -/
def drain : Nat := 2 * frameClocks divisorConstant + 2

/-- The wire behind TXDATA is as far as the pauses of the program account for. -/
structure Paced (todo : List Stmt) (waited : Nat) (a : Wire) : Prop where
  residual : (a.owed divisorConstant).length ≤ drain - waited
  pace : ∃ ready, (pace ready todo).isSome = true ∧ (ready = true → a.held = none)

theorem held_next {divisor : Divisor} {a : Wire} (h : a.held = none) :
    (a.next divisor none).held = none := by
  obtain ⟨held, stage⟩ := a
  obtain rfl : held = none := h
  cases stage <;> rfl

theorem held_of_owed {divisor : Divisor} {a : Wire} {s : Tx} {txData : Byte}
    (h : Tracks divisor a s txData) (howed : a.owed divisor = []) : a.held = none := by
  obtain ⟨held, stage⟩ := a
  cases held with
  | none => rfl
  | some b =>
    cases stage with
    | quiet => cases howed
    | loading => cases howed
    | loaded c =>
      obtain ⟨-, -, -, hnone, -⟩ := h.stage
      exact hnone
    | shifting c bit clocks => cases (List.append_eq_nil_iff.mp howed).2

/-- A clock without a write. -/
theorem owed_quiet {a : Wire} {s : Slave} (hsound : Sound divisorConstant a s) :
    ((a.next divisorConstant none).owed divisorConstant).length =
      (a.owed divisorConstant).length - 1 := by
  have hnone : (none : Option Byte).isSome = true → a.held = none := fun h => by cases h
  simp [owed_next hsound.tracks hnone, waiting]

theorem paced_wait {l : List Stmt} {waited : Nat} {a : Wire} {s : Slave} (h : Paced l waited a)
    (hsound : Sound divisorConstant a s) : Paced l (waited + 1) (a.next divisorConstant none) := by
  obtain ⟨ready, hpace, hready⟩ := h.pace
  have hresidual := h.residual
  have hfewer := owed_quiet hsound
  exact ⟨by omega, ready, hpace, fun hr => held_next (hready hr)⟩

/-- Where a write comes next, TRDY is set. -/
theorem paced_write {s : Stmt} {l rest : List Stmt} {waited : Nat} {a : Wire} {d : Word}
    (h : Paced (s :: rest) waited a) (hs : micro s (.act (.txdata d)) = some l) :
    a.held = none := by
  obtain ⟨ready, hpace, hready⟩ := h.pace
  obtain ⟨next, -, ⟨d, -, hr, -⟩ | ⟨hne, -⟩⟩ := pace_step hpace hs
  · exact hready hr
  · exact absurd rfl (hne d)

theorem cycle_txdata {e : Event} (h : ∀ d, e ≠ .act (.txdata d)) : (cycle e).txdata = none := by
  cases e with
  | act a =>
    cases a with
    | txdata d => exact absurd rfl (h d)
    | _ => rfl
  | _ => rfl

theorem paced_own {s : Stmt} {e : Event} {l rest : List Stmt} {waited : Nat} {a : Wire}
    {u : Slave} {rxd : Bool} (h : Paced (s :: rest) waited a) (hs : micro s e = some l)
    (hsound : Sound divisorConstant a u) (hanswers : answers u.uart waited e = true)
    (hnext : Sound divisorConstant (a.next divisorConstant (cycle e).txdata)
      (u.step divisorConstant (cycle e, rxd))) :
    Paced (l ++ rest) 0 (a.next divisorConstant (cycle e).txdata) := by
  obtain ⟨ready, hpace, hready⟩ := h.pace
  have hresidual := h.residual
  have hbound := length_owed hnext
  obtain ⟨next, hafter, ⟨d, rfl, hr, rfl⟩ | ⟨hne, hcause⟩⟩ := pace_step hpace hs
  · exact ⟨hbound, false, hafter, fun hf => by cases hf⟩
  · refine ⟨hbound, next, hafter, fun hr => ?_⟩
    rw [cycle_txdata hne]
    apply held_next
    obtain hr | ⟨v, rfl, hv⟩ | ⟨us, rfl, hlong⟩ := hcause hr
    · exact hready hr
    · have hstatus : v = u.uart.statusReg.setWidth 32 := by simpa [answers] using hanswers
      rw [hstatus, trdy_statusReg, hsound.tracks.ready] at hv
      exact Option.isNone_iff_eq_none.mp hv
    · have hwaited : usleepClocks * us ≤ waited := by simpa [answers] using hanswers
      have hmore : usleepClocks * 1000 ≤ usleepClocks * us := Nat.mul_le_mul_left _ hlong
      have hdrain : drain ≤ usleepClocks * 1000 := by decide
      apply held_of_owed hsound.tracks
      apply List.eq_nil_of_length_eq_zero
      omega

theorem ready_of_held {a : Wire} {s : Slave} (h : Sound divisorConstant a s)
    (hheld : a.held = none) : s.uart.tx.txReady = true := by
  rw [h.tracks.ready, hheld]
  rfl

theorem plain_clock (m : Move) : m.clock.1.plain = true := by
  cases m with
  | wait again rxd => cases again <;> rfl
  | own e rxd =>
    cases e with
    | act a => cases a <;> rfl
    | _ => rfl

/-- A step that writes finds TRDY set. -/
theorem free_step (hstp : Scripted stp todo) {s t : System σ} {m : Move} {a : Wire}
    (hsound : Sound divisorConstant a s.slave) (h : Paced (todo s.program) s.waited a)
    (hm : boardStep stp s m = some t) (hw : m.clock.1.txdata.isSome = true) :
    s.slave.uart.tx.txReady = true := by
  cases m with
  | wait again rxd => cases again <;> cases hw
  | own e rxd =>
    obtain ⟨-, p, hp, -⟩ := boardStep_own hm
    obtain ⟨d, rfl⟩ : ∃ d, e = .act (.txdata d) := by
      by_contra hne
      have hnone := cycle_txdata fun d hd => hne ⟨d, hd⟩
      rw [Move.clock, hnone] at hw
      cases hw
    obtain ⟨x, rest, l, hx, hl, -⟩ | ⟨b, hb, -⟩ := hstp _ _ _ hp
    · rw [hx] at h
      exact ready_of_held hsound (paced_write h hl)
    · cases hb

/-- Every step keeps the pacing. -/
theorem paced_step (hstp : Scripted stp todo) {s t : System σ} {m : Move} {a : Wire}
    (hsound : Sound divisorConstant a s.slave) (h : Paced (todo s.program) s.waited a)
    (hm : boardStep stp s m = some t) :
    ∃ b, Sound divisorConstant b t.slave ∧ Paced (todo t.program) t.waited b := by
  have hnext := sound_step (by decide) hsound (plain_clock m) (free_step hstp hsound h hm)
  refine ⟨_, slave_step hm ▸ hnext, ?_⟩
  cases m with
  | wait again rxd =>
    cases hm
    cases again <;> exact paced_wait h hsound
  | own e rxd =>
    obtain ⟨hanswers, p, hp, rfl⟩ := boardStep_own hm
    obtain ⟨x, rest, l, hx, hl, hrest⟩ | ⟨b, rfl, htame⟩ := hstp _ _ _ hp
    · rw [hx] at h
      rw [hrest]
      exact paced_own h hl hsound hanswers hnext
    · exact ⟨length_owed hnext, false, htame false, fun hf => by cases hf⟩

theorem polite_run (hstp : Scripted stp todo) {s t : System σ} {ms : List Move} {a : Wire}
    (hsound : Sound divisorConstant a s.slave) (h : Paced (todo s.program) s.waited a)
    (hrun : run (boardStep stp) s ms = some t) : Polite divisorConstant s.slave (clocks ms) := by
  induction ms generalizing s a with
  | nil => exact polite_nil divisorConstant s.slave
  | cons m ms ih =>
    obtain ⟨u, hu, ht⟩ := Option.bind_eq_some_iff.mp hrun
    obtain ⟨b, hb, hpaced⟩ := paced_step hstp hsound h hu
    have hrest := ih hb hpaced ht
    rw [slave_step hu] at hrest
    exact hrest.cons (plain_clock m) (free_step hstp hsound h hu)

/-- The board at power-up with a program. -/
def powerUp (p : σ) : System σ := ⟨p, 0, Uart.start⟩

theorem polite_powerUp (hstp : Scripted stp todo) {p : σ} (hp : Tame (todo p)) {s : System σ}
    {ms : List Move} (h : run (boardStep stp) (powerUp p) ms = some s) :
    Polite divisorConstant Uart.start (clocks ms) :=
  polite_run hstp (sound_start divisorConstant)
    ⟨Nat.zero_le _, false, hp false, fun hf => by cases hf⟩ h

/-- The line carries what the program writes: one frame for each byte, in order, of which
at most two are still to come, and none once nothing has been written for as long; no write
finds the transmitter occupied. -/
def Carried (ms : List Move) (s : System σ) : Prop :=
  s.slave.uart.tx.txOverrun = false ∧
  (∃ rest, rest.length ≤ 2 * frameClocks divisorConstant + 3 ∧
    Sends (· = bitTimes divisorConstant)
      (txds divisorConstant Uart.start (clocks ms) ++ rest) (AtStream.txBytes (events ms))) ∧
  ∀ early late, ms = early ++ late → AtStream.txBytes (events late) = [] →
    2 * frameClocks divisorConstant + 3 ≤ late.length →
    Sends (· = bitTimes divisorConstant)
      (txds divisorConstant Uart.start (clocks ms)) (AtStream.txBytes (events ms))

theorem carried_powerUp (hstp : Scripted stp todo) {p : σ} (hp : Tame (todo p)) {s : System σ}
    {ms : List Move} (h : run (boardStep stp) (powerUp p) ms = some s) : Carried ms s := by
  have hpolite := polite_powerUp hstp hp h
  refine ⟨?_, ?_, ?_⟩
  · rw [run_slave h]
    exact overrun_off (by decide) hpolite
  · rw [← sent_clocks]
    exact frames_underway (by decide) hpolite
  · rintro early late rfl hnone hlong
    rw [← sent_clocks, clocks_append]
    rw [clocks_append] at hpolite
    rw [← sent_clocks] at hnone
    exact frames_complete (by decide) hpolite hnone (by rwa [clocks, List.length_map])

/-- On the board, every sequence of calls of the sending functions and every run of `main`
puts exactly what it writes on the line. -/
theorem program_carried :
    (∀ (calls : List Transmit.Call) ms s,
      run (boardStep callStep) (powerUp (calls.flatMap Transmit.Call.code)) ms = some s →
        Carried ms s) ∧
    (∀ ms s, run (boardStep (step Networked.main)) (powerUp Networked.boot) ms = some s →
      Carried ms s) :=
  ⟨fun calls _ _ h => carried_powerUp Transmit.scripted_call (Transmit.tame_calls calls) h,
    fun _ _ h => carried_powerUp Transmit.scripted_main Transmit.tame_start h⟩

/-- The start of a call that sends the letter 'A'. -/
def boardA : List Move :=
  [.own (.status 0x60) true, .own (.act (.txdata 0x41)) true, .wait true true, .wait false true]

theorem program_carried_A : ∃ s : System (List Stmt),
    run (boardStep callStep) (powerUp (writenUart (ascii "A") 1)) boardA = some s ∧
      Carried boardA s := by
  refine ⟨⟨[usleep 1000, iowrTxdata 0x0D, usleep 1000, iowrTxdata 0x0A], 2,
    Uart.start.run divisorConstant (clocks boardA)⟩, by decide +kernel, ?_⟩
  exact program_carried.1 [.writenUart (ascii "A") 1] boardA _ (by decide +kernel)

/-! ## Receiving -/

/-- The bytes that the program gets from RXDATA. -/
def bytesRead (es : List Event) : List Byte :=
  es.filterMap fun
    | .rxdata v => some (low v)
    | _ => none

/-- Every step works on the head statement, or a button value brings statements of one kind. -/
def Bodied (kind : Stmt → Bool) (stp : σ → Event → Option σ) (todo : σ → List Stmt) : Prop :=
  ∀ p e q, stp p e = some q →
    (∃ s rest l, todo p = s :: rest ∧ micro s e = some l ∧ todo q = l ++ rest) ∨
    (∃ b, e = .button b ∧ ∀ x ∈ todo q, kind x = true)

theorem bodied_call (kind : Stmt → Bool) : Bodied kind callStep id := by
  intro p e q h
  cases p with
  | nil => cases h
  | cons s rest =>
    obtain ⟨l, hl, rfl⟩ := Option.map_eq_some_iff.mp h
    exact .inl ⟨s, rest, l, rfl, hl, rfl⟩

theorem bodied_main {kind : Stmt → Bool}
    (hloop : ∀ k b, ∀ s ∈ (Networked.loop k b).1, kind s = true) :
    Bodied kind (step Networked.main) Config.todo := by
  intro p e q h
  obtain ⟨s, rest, l, hs, hl, rfl⟩ | ⟨b, -, hb, rfl⟩ := step_cases h
  · exact .inl ⟨s, rest, l, hs, hl, rfl⟩
  · exact .inr ⟨b, heard_button hb, hloop p.ctrl b⟩

/-- RXDATA is read next only if RRDY is set, and not read later without a new poll. -/
structure Watched (l : List Stmt) (s : Slave) : Prop where
  status : NoStatusWrite s
  head : l.head? = some .readRxdata → s.uart.flags.rxCharReady = true
  tail : .readRxdata ∉ l.tail

theorem watched_written {l : List Stmt} (h : ∀ x ∈ l, x.written = true) {s : Slave}
    (hstatus : NoStatusWrite s) : Watched l s := by
  have hnone : .readRxdata ∉ l := fun hmem => (by cases h _ hmem)
  exact ⟨hstatus, fun hhead => absurd (List.mem_of_head? hhead) hnone,
    fun hmem => hnone (List.mem_of_mem_tail hmem)⟩

theorem keeps_clock (m : Move) : m.clock.1.keeps = true := by
  cases m with
  | wait again rxd => cases again <;> rfl
  | own e rxd =>
    cases e with
    | act a => cases a <;> rfl
    | _ => rfl

/-- Only a poll that has seen RRDY makes the program read RXDATA. -/
theorem micro_readRxdata {s : Stmt} {e : Event} {l : List Stmt} (h : micro s e = some l)
    (hmem : .readRxdata ∈ l) : (∃ v, e = .status v ∧ rrdy v = true) ∧ l = [.readRxdata] := by
  obtain ⟨a, rfl, rfl, rfl⟩ | ⟨v, rfl, rfl, rfl⟩ | ⟨v, rfl, rfl, rfl⟩ | ⟨v, rfl, rfl, rfl⟩ |
    ⟨c, rfl, rfl, rfl⟩ | ⟨c, v, rfl, rfl, rfl⟩ := micro_cases h
  · cases hmem
  · split at hmem <;> simp at hmem
  · cases hv : rrdy v with
    | true => exact ⟨⟨v, rfl, hv⟩, rfl⟩
    | false => simp [hv] at hmem
  · simp at hmem
  · split at hmem <;> simp at hmem
  · split at hmem <;> simp at hmem

theorem watched_step (hstp : Bodied Stmt.written stp todo) {s t : System σ} {m : Move}
    (h : Watched (todo s.program) s.slave) (hm : boardStep stp s m = some t) :
    Watched (todo t.program) t.slave := by
  have hstatus : NoStatusWrite t.slave := by
    rw [slave_step hm]
    exact noStatusWrite_step h.status (keeps_clock m)
  have hkept : m.clock.1.rxdata = false → s.slave.uart.flags.rxCharReady = true →
      t.slave.uart.flags.rxCharReady = true := by
    intro hread hfull
    rw [slave_step hm, (flags_step h.status (keeps_clock m)).1, hread, hfull]
    simp
  cases m with
  | wait again rxd =>
    have hnone : (Move.wait again rxd).clock.1.rxdata = false := by cases again <;> rfl
    cases hm
    exact ⟨hstatus, fun hhead => hkept hnone (h.head hhead), h.tail⟩
  | own e rxd =>
    obtain ⟨hanswers, p, hp, rfl⟩ := boardStep_own hm
    obtain ⟨x, rest, l, hx, hl, hrest⟩ | ⟨b, rfl, hbody⟩ := hstp _ _ _ hp
    · have htail : .readRxdata ∉ rest := by
        have := h.tail
        rwa [hx] at this
      rw [hrest]
      by_cases hmem : .readRxdata ∈ l
      · obtain ⟨⟨v, rfl, hv⟩, rfl⟩ := micro_readRxdata hl hmem
        have hvalue : v = s.slave.uart.statusReg.setWidth 32 := by simpa [answers] using hanswers
        rw [hvalue, rrdy_statusReg] at hv
        exact ⟨hstatus, fun _ => hkept rfl hv, htail⟩
      · have hnone : .readRxdata ∉ l ++ rest := by simp [hmem, htail]
        exact ⟨hstatus, fun hhead => absurd (List.mem_of_head? hhead) hnone,
          fun hin => hnone (List.mem_of_mem_tail hin)⟩
    · exact watched_written hbody hstatus

/-- RXDATA is read only when RRDY is set. -/
theorem watched_ready (hstp : Bodied Stmt.written stp todo) {s t : System σ} {m : Move}
    (h : Watched (todo s.program) s.slave) (hm : boardStep stp s m = some t)
    (hread : m.clock.1.rxdata = true) : s.slave.uart.flags.rxCharReady = true := by
  cases m with
  | wait again rxd => cases again <;> cases hread
  | own e rxd =>
    obtain ⟨-, p, hp, -⟩ := boardStep_own hm
    obtain ⟨v, rfl⟩ : ∃ v, e = .rxdata v := by
      cases e with
      | rxdata v => exact ⟨v, rfl⟩
      | act a => cases a <;> cases hread
      | _ => cases hread
    obtain ⟨x, rest, l, hx, hl, -⟩ | ⟨b, hb, -⟩ := hstp _ _ _ hp
    · have hhead : x = .readRxdata := by cases x <;> simp [micro] at hl; rfl
      exact h.head (by rw [hx, hhead]; rfl)
    · cases hb

theorem guarded_run (hstp : Bodied Stmt.written stp todo) {s t : System σ} {ms : List Move}
    (h : Watched (todo s.program) s.slave) (hrun : run (boardStep stp) s ms = some t) :
    Guarded divisorConstant s.slave (clocks ms) := by
  induction ms generalizing s with
  | nil => exact guarded_nil s.slave
  | cons m ms ih =>
    obtain ⟨u, hu, ht⟩ := Option.bind_eq_some_iff.mp hrun
    have hrest := ih (watched_step hstp h hu) ht
    rw [slave_step hu] at hrest
    exact hrest.cons (keeps_clock m) (watched_ready hstp h hu)

/-- A read gives the program the low byte of RXDATA. -/
theorem taken_step {s t : System σ} {m : Move} (hm : boardStep stp s m = some t) :
    (if m.clock.1.rxdata then [(s.slave.step divisorConstant m.clock).uart.readdata.setWidth 8]
      else []) = bytesRead m.event.toList := by
  cases m with
  | wait again rxd => cases again <;> rfl
  | own e rxd =>
    cases e with
    | rxdata v =>
      obtain ⟨hanswers, -⟩ := boardStep_own hm
      have hread : (Move.own (.rxdata v) rxd).clock.1.rxdata = true := rfl
      have hvalue : v = s.slave.uart.line.rxData.setWidth 32 := by simpa [answers] using hanswers
      have hlow : low v = s.slave.uart.line.rxData := by
        rw [hvalue, low, BitVec.setWidth_setWidth_of_le _ (by omega)]
        simp
      rw [if_pos hread, readdata_rxdata hread, ← hlow]
      rfl
    | act a => cases a <;> rfl
    | _ => rfl

theorem taken_run {s t : System σ} {ms : List Move} (hrun : run (boardStep stp) s ms = some t) :
    taken divisorConstant s.slave (clocks ms) = bytesRead (events ms) := by
  induction ms generalizing s with
  | nil => rfl
  | cons m ms ih =>
    obtain ⟨u, hu, ht⟩ := Option.bind_eq_some_iff.mp hrun
    have hrest := ih ht
    rw [slave_step hu] at hrest
    have hsplit : clocks (m :: ms) = m.clock :: clocks ms := rfl
    rw [hsplit, taken, hrest, taken_step hu, events_cons, bytesRead, bytesRead, bytesRead,
      List.filterMap_append]

/-- What the program has read from the line: frames in step with the baud counter are read
in order; the frames that it has not read yet, or one that is complete, stay in the UART, and
none is missing exactly if the overrun flag is off. -/
def Heard (bs : List Byte) (ms : List Move) (s : System σ) : Prop :=
  (bytesRead (events ms) ++ held s.slave.uart ++
    (pending s.slave.uart.line).map byteOf).Sublist bs ∧
  (s.slave.uart.flags.rxOverrun = false ↔
    bytesRead (events ms) ++ held s.slave.uart ++ (pending s.slave.uart.line).map byteOf = bs) ∧
  s.slave.uart.flags.framingError = false ∧ s.slave.uart.flags.breakDetect = false

theorem heard_powerUp (hstp : Bodied Stmt.written stp todo) {p : σ}
    (hp : ∀ x ∈ todo p, x.written = true) {s : System σ} {ms : List Move}
    (h : run (boardStep stp) (powerUp p) ms = some s)
    {line : List Bool} {bs : List Byte} {n : Nat}
    (hline : Sends (InStep (period divisorConstant) (centre divisorConstant)) line bs)
    (hrxd : (clocks ms).map Prod.snd = List.replicate n false ++ true :: line) :
    Heard bs ms s := by
  have hwatched : Watched (todo p) Uart.start :=
    watched_written hp fun data hlast => (by cases hlast)
  have hguarded := guarded_run hstp hwatched h
  have htaken : taken divisorConstant Uart.start (clocks ms) = bytesRead (events ms) :=
    taken_run h
  have hslave : Uart.start.run divisorConstant (clocks ms) = s.slave := (run_slave h).symm
  rw [Heard, ← htaken, ← hslave]
  exact ⟨line_order (by decide) hline hrxd hguarded, line_whole (by decide) hline hrxd hguarded,
    line_flags (by decide) hline hrxd hguarded⟩

/-- Every function body and `main` read the frames on the line in order. -/
theorem program_heard {ms : List Move} {line : List Bool} {bs : List Byte} {n : Nat}
    (hline : Sends (InStep (period divisorConstant) (centre divisorConstant)) line bs)
    (hrxd : (clocks ms).map Prod.snd = List.replicate n false ++ true :: line) :
    (∀ (body : List Stmt) s, (∀ x ∈ body, x.written = true) →
      run (boardStep callStep) (powerUp body) ms = some s → Heard bs ms s) ∧
    (∀ s, run (boardStep (step Networked.main)) (powerUp Networked.boot) ms = some s →
      Heard bs ms s) :=
  ⟨fun _ _ hbody h => heard_powerUp (bodied_call _) hbody h hline hrxd,
    fun _ h => heard_powerUp (bodied_main Menu.loop_written) Menu.start_written h hline hrxd⟩

/-- A call of `readUart` while the line is at rest. -/
def boardRest : List Move :=
  [.wait false false, .wait false true, .own (.status 0x60) true, .wait true true]

theorem program_heard_rest : ∃ s : System (List Stmt),
    run (boardStep callStep) (powerUp readUart) boardRest = some s ∧ Heard [] boardRest s := by
  have hline : Sends (InStep (period divisorConstant) (centre divisorConstant)) [true, true]
      ([] : List Byte) := .idle (.idle .rest)
  refine ⟨⟨readUart, 1, Uart.start.run divisorConstant (clocks boardRest)⟩, by decide +kernel, ?_⟩
  exact (program_heard hline (n := 1) rfl).1 readUart _ (by simp [readUart]) (by decide +kernel)

/-! ## At the other end of the line -/

/-- txd as the synchronizer of another UART shows it, low for some clocks after its reset. -/
def farEnd (n : Nat) (ms : List Move) : List Bool :=
  List.replicate n false ++ true :: txds divisorConstant Uart.start (clocks ms)

/-- A receiver of the same kind at the other end of txd hears the dialogue of the buttons
pressed so far: at any time the beginning of bytes that parse into the start-up lines and
one block for each selection, and all of them once `main` asks for the next button and has
written nothing for some time. -/
theorem dialogue_heard {ms : List Move} {s : System (Config Stmt Poll)}
    (h : run (boardStep (step Networked.main)) (powerUp Networked.boot) ms = some s) (n : Nat) :
    ∃ bytes, Framing.parse AtStream.atFormat bytes = some (AtStream.startFrames ++
        (Menu.episodes Menu.first (buttons (events ms))).flatMap AtStream.episodeFrames) ∧
      arrivals divisorConstant .reset (farEnd n ms) <+: bytes.map txLoadVal ∧
      (s.program.todo = [] → ∀ early late, ms = early ++ late →
        AtStream.txBytes (events late) = [] →
        2 * frameClocks divisorConstant + 3 ≤ late.length →
        arrivals divisorConstant .reset (farEnd n ms) ++
          pending (listen divisorConstant .reset (farEnd n ms)) = bytes.map txLoadVal) := by
  have hwire := AtStream.run_wire (run_program h)
  have hpolite := polite_powerUp Transmit.scripted_main Transmit.tame_start h
  have hfront := words_underway (by decide) hpolite n
  rw [sent_clocks] at hfront
  refine ⟨AtStream.txBytes (events ms) ++ s.program.todo.flatMap AtStream.transmitted.owed,
    ?_, ?_, ?_⟩
  · rw [hwire, Framing.parse_items AtStream.atFormat _ (AtStream.items_ok _),
      AtStream.items_frames]
  · rw [List.map_append]
    exact hfront.trans (List.prefix_append _ _)
  · rintro hpoll early late rfl hnone hlong
    rw [hpoll, List.flatMap_nil, List.append_nil, ← sent_clocks, farEnd, clocks_append]
    rw [clocks_append] at hpolite
    rw [← sent_clocks] at hnone
    exact words_complete (by decide) hpolite hnone (by rwa [clocks, List.length_map]) n

theorem dialogue_heard_A : ∃ bytes, Framing.parse AtStream.atFormat bytes =
      some (AtStream.startFrames ++
        (Menu.episodes Menu.first (buttons (events boardA))).flatMap AtStream.episodeFrames) ∧
    arrivals divisorConstant .reset (farEnd 2 boardA) <+: bytes.map txLoadVal := by
  have hrun : run (boardStep (step Networked.main)) (powerUp Networked.boot) boardA =
      some ⟨⟨Networked.start.drop 2, .menu 0⟩, 2,
        Uart.start.run divisorConstant (clocks boardA)⟩ := by
    decide +kernel
  obtain ⟨bytes, hparse, hfront, -⟩ := dialogue_heard hrun 2
  exact ⟨bytes, hparse, hfront⟩

end Board
