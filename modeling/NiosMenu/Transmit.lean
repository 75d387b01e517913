import NiosMenu.AtStream
import NiosMenu.Receive
import NiosMenu.TwoStage

/-!
# Pacing of the writes to TXDATA

Most writes are not preceded by a poll of TRDY. They are safe because every write is
followed by a pause, or by the poll of the next call, before the next write.
-/
namespace Transmit

open Firmware Reactive Menu Devices Networked AtStream Receive TwoStage

/-- The bit time of the UART and the clocks of one microsecond of `usleep`. -/
def bitClocks : Nat := 435
def usleepClocks : Nat := 45

/-- A program, the clocks since its last bus access, and the transmitter. -/
structure Sender (σ : Type) where
  program : σ
  waited : Nat
  tx : Transmitter Byte
  deriving DecidableEq, Repr

inductive Move where
  | own (e : Event)
  | tick (frame : Nat)
  deriving DecidableEq, Repr

/-- STATUS shows TRDY, and a pause ends when its time is over. -/
def allows (tx : Transmitter Byte) (waited : Nat) : Event → Bool
  | .status v => trdy v == ready tx
  | .act (.usleep us) => usleepClocks * us ≤ waited
  | _ => true

def transmit (tx : Transmitter Byte) : Event → Transmitter Byte
  | .act (.txdata d) => write tx (low d)
  | _ => tx

/-- A bus access of the program, or a clock; a frame takes ten bit times and a few clocks. -/
def senderStep (few : Nat) (stp : σ → Event → Option σ) (s : Sender σ) : Move → Option (Sender σ)
  | .own e =>
    if allows s.tx s.waited e then (stp s.program e).map fun p => ⟨p, 0, transmit s.tx e⟩ else none
  | .tick frame =>
    if 10 * bitClocks ≤ frame ∧ frame ≤ 10 * bitClocks + few then
      some ⟨s.program, s.waited + 1, tick frame s.tx⟩
    else none

def own (ms : List Move) : List Event :=
  ms.filterMap fun
    | .own e => some e
    | .tick _ => none

/-- Whether every write of a list comes after a poll or a long pause with no write in
between; the result is the same for what follows the list. -/
def pace : Bool → List Stmt → Option Bool
  | ready, [] => some ready
  | ready, .act (.txdata _) :: l => if ready then pace false l else none
  | ready, .act (.usleep us) :: l => pace (ready || decide (1000 ≤ us)) l
  | _, .pollTrdy :: l => pace true l
  | ready, _ :: l => pace ready l

theorem pace_append (ready : Bool) (l m : List Stmt) :
    pace ready (l ++ m) = (pace ready l).bind fun r => pace r m := by
  induction l generalizing ready with
  | nil => rfl
  | cons s l ih =>
    cases s with
    | act a =>
      cases a with
      | txdata d =>
        cases ready
        · rfl
        · exact ih false
      | usleep us => exact ih _
      | lcd a b => exact ih ready
      | leds d => exact ih ready
      | jtagData c => exact ih ready
    | pollTrdy => exact ih true
    | pollRrdy => exact ih ready
    | readRxdata => exact ih ready
    | checkByte c => exact ih ready
    | jtagWrite c => exact ih ready

/-- The longest frame, and the longest time for which both registers can be busy. -/
def longest (few : Nat) : Nat := 10 * bitClocks + few
def drain (few : Nat) : Nat := 2 * longest few + 3

/-- The transmitter is as far as the pauses of the program account for. -/
structure Paced (few : Nat) (todo : List Stmt) (waited : Nat) (tx : Transmitter Byte) : Prop where
  shift : shiftTime tx ≤ longest few + 1
  residual : residual (longest few) tx ≤ drain few - waited
  pace : ∃ ready, (pace ready todo).isSome ∧ (ready = true → tx.hold = none)

theorem paced_tick {few frame : Nat} {todo : List Stmt} {waited : Nat} {tx : Transmitter Byte}
    (h : Paced few todo waited tx) (hframe : frame ≤ longest few) :
    Paced few todo (waited + 1) (tick frame tx) := by
  obtain ⟨ready, hpace, hready⟩ := h.pace
  have hnearer := residual_tick hframe tx
  have hresidual := h.residual
  exact ⟨shiftTime_tick hframe h.shift, by omega, ready, hpace,
    fun hr => hold_tick frame (hready hr)⟩

/-- Where a write comes next, the holding register is free. -/
theorem paced_write {few : Nat} {s : Stmt} {l rest : List Stmt} {d : Word} {waited : Nat}
    {tx : Transmitter Byte} (h : Paced few (s :: rest) waited tx)
    (hs : micro s (.act (.txdata d)) = some l) : tx.hold = none := by
  have hhead : s = iowrTxdata d := by
    cases s <;> simp only [micro, reduceCtorEq, Option.ite_none_right_eq_some] at hs
    rw [← hs.1]
  subst hhead
  obtain ⟨ready, hpace, hready⟩ := h.pace
  apply hready
  cases ready
  · cases hpace
  · rfl

/-- A bus access that the transmitter has nothing to do with. -/
theorem paced_quiet {few : Nat} {s : Stmt} {l rest : List Stmt} {waited : Nat}
    {tx : Transmitter Byte} (h : Paced few (s :: rest) waited tx)
    (hl : ∀ ready, pace ready (l ++ rest) = pace ready (s :: rest)) :
    Paced few (l ++ rest) 0 tx := by
  obtain ⟨ready, hpace, hready⟩ := h.pace
  have hresidual := h.residual
  exact ⟨h.shift, by omega, ready, by rw [hl]; exact hpace, hready⟩

/-- A pause of 1 ms is long enough for two frames. -/
theorem paced_usleep {few : Nat} (hfew : drain few ≤ usleepClocks * 1000) {us waited : Nat}
    {rest : List Stmt} {tx : Transmitter Byte} (h : Paced few (usleep us :: rest) waited tx)
    (hwaited : usleepClocks * us ≤ waited) : Paced few rest 0 tx := by
  obtain ⟨ready, hpace, hready⟩ := h.pace
  have hresidual := h.residual
  refine ⟨h.shift, by omega, ready || decide (1000 ≤ us), hpace, ?_⟩
  intro hr
  obtain hr | hr := Bool.or_eq_true_iff.mp hr
  · exact hready hr
  · have hlong : usleepClocks * 1000 ≤ usleepClocks * us :=
      Nat.mul_le_mul_left _ (of_decide_eq_true hr)
    have hzero : residual (longest few) tx = 0 := by omega
    exact hold_of_residual hzero

theorem paced_txdata {few waited : Nat} {d : Word} {rest : List Stmt} {tx : Transmitter Byte}
    (h : Paced few (iowrTxdata d :: rest) waited tx) : Paced few rest 0 (write tx (low d)) := by
  obtain ⟨ready, hpace, -⟩ := h.pace
  have hnext : (pace false rest).isSome := by
    cases ready
    · cases hpace
    · exact hpace
  exact ⟨h.shift, residual_write h.shift _, false, hnext, fun hf => by cases hf⟩

/-- A poll that sees TRDY finds the holding register free. -/
theorem paced_trdy {few waited : Nat} {rest : List Stmt} {tx : Transmitter Byte}
    (h : Paced few (.pollTrdy :: rest) waited tx) (hhold : tx.hold = none) :
    Paced few rest 0 tx := by
  obtain ⟨ready, hpace, -⟩ := h.pace
  have hresidual := h.residual
  exact ⟨h.shift, by omega, true, hpace, fun _ => hhold⟩

theorem paced_own {few : Nat} (hfew : drain few ≤ usleepClocks * 1000) {s : Stmt} {e : Event}
    {l rest : List Stmt} {waited : Nat} {tx : Transmitter Byte}
    (h : Paced few (s :: rest) waited tx) (hs : micro s e = some l)
    (hallow : allows tx waited e = true) : Paced few (l ++ rest) 0 (transmit tx e) := by
  obtain ⟨a, rfl, rfl, rfl⟩ | ⟨v, rfl, rfl, rfl⟩ | ⟨v, rfl, rfl, rfl⟩ | ⟨v, rfl, rfl, rfl⟩ |
    ⟨c, rfl, rfl, rfl⟩ | ⟨c, v, rfl, rfl, rfl⟩ := micro_cases hs
  · cases a with
    | usleep us => exact paced_usleep hfew h (by simpa [allows] using hallow)
    | lcd a b => exact paced_quiet h fun _ => rfl
    | leds d => exact paced_quiet h fun _ => rfl
    | txdata d => exact paced_txdata h
    | jtagData c => exact paced_quiet h fun _ => rfl
  · have htrdy : trdy v = ready tx := by simpa [allows] using hallow
    cases hv : trdy v with
    | false => exact paced_quiet h fun _ => rfl
    | true =>
      rw [hv] at htrdy
      exact paced_trdy h (Option.isNone_iff_eq_none.mp htrdy.symm)
  · exact paced_quiet h fun _ => by split <;> rfl
  · exact paced_quiet h fun _ => rfl
  · exact paced_quiet h fun _ => by split <;> rfl
  · exact paced_quiet h fun _ => by split <;> rfl

/-! ## The calls -/

theorem pace_loop (n : Int) {body : Nat → List Stmt} (h : ∀ i, pace true (body i) = some true) :
    pace true (forLoop n body) = some true := by
  rw [forLoop]
  induction List.range n.toNat with
  | nil => rfl
  | cons i l ih => rw [List.flatMap_cons, pace_append, h i, Option.bind_some, ih]

/-- Whatever was written before, `writenUart` polls first; it ends with a write. -/
theorem pace_writenUart (ready : Bool) (v : List Byte) (n : Int) :
    pace ready (writenUart v n) = some false := by
  rw [writenUart, pace_append, pace_append]
  have hpoll : pace ready [.pollTrdy] = some true := rfl
  rw [hpoll, Option.bind_some, pace_loop n fun _ => rfl]
  rfl

theorem pace_writenUartQuick (ready : Bool) (c : Byte) (n : Int) :
    pace ready (writenUartQuick c n) = some true := by
  rw [writenUartQuick, pace_append]
  have hpoll : pace ready [.pollTrdy] = some true := rfl
  rw [hpoll, Option.bind_some, pace_loop n fun _ => rfl]

theorem pace_connectMQTT (ready : Bool) : pace ready connectMQTT = some false := by
  rw [connectMQTT, pace_append, pace_append, pace_append, pace_writenUart]
  have hsleep : pace false [usleep 1000000] = some true := rfl
  have hloop := pace_loop (sizeof connect) fun z => pace_writenUartQuick true (connect.getD z 0) 1
  rw [Option.bind_some, hsleep, Option.bind_some, hloop]
  rfl

theorem pace_publishMQTT (ready : Bool) (p : List Byte) (n : Int) :
    pace ready (publishMQTT p n) = some true := by
  have hsleep : ∀ r, pace r [usleep 1000000] = some true := by
    intro r
    cases r <;> rfl
  have hsend : ∀ c : Byte, pace true (.jtagWrite c :: writenUartQuick c 1) = some true :=
    fun c => pace_writenUartQuick true c 1
  have htail : pace true [iowrTxdata 0x0D, usleep 1000, iowrTxdata 0x0A, usleep 1000000] =
      some true := rfl
  rw [publishMQTT]
  simp only [pace_append, hsleep, pace_writenUart, Option.bind_some, pace_loop _ fun z => hsend _,
    htail]

/-- The functions that write to TXDATA, with any arguments. -/
inductive Call where
  | writenUart (vetor : List Byte) (tamanho : Int)
  | writenUartQuick (vetor : Byte) (tamanho : Int)
  | connectMQTT
  | publishMQTT (publish : List Byte) (size : Int)

def Call.code : Call → List Stmt
  | .writenUart vetor tamanho => Networked.writenUart vetor tamanho
  | .writenUartQuick vetor tamanho => Networked.writenUartQuick vetor tamanho
  | .connectMQTT => Networked.connectMQTT
  | .publishMQTT publish size => Networked.publishMQTT publish size

/-- Statements that may follow anything. -/
def Tame (l : List Stmt) : Prop := ∀ ready, (pace ready l).isSome = true

theorem tame_append {l m : List Stmt} (hl : Tame l) (hm : Tame m) : Tame (l ++ m) := by
  intro ready
  obtain ⟨r, hr⟩ := Option.isSome_iff_exists.mp (hl ready)
  rw [pace_append, hr, Option.bind_some]
  exact hm r

theorem tame_call (c : Call) : Tame c.code := by
  intro ready
  cases c with
  | writenUart v n => rw [Call.code, pace_writenUart]; rfl
  | writenUartQuick c n => rw [Call.code, pace_writenUartQuick]; rfl
  | connectMQTT => rw [Call.code, pace_connectMQTT]; rfl
  | publishMQTT p n => rw [Call.code, pace_publishMQTT]; rfl

theorem tame_calls (calls : List Call) : Tame (calls.flatMap Call.code) := by
  induction calls with
  | nil => exact fun _ => rfl
  | cons c calls ih => exact tame_append (tame_call c) ih

theorem tame_onBoard {l : List Stmt} (h : ∀ s ∈ l, onBoard s = true) : Tame l := by
  induction l with
  | nil => exact fun _ => rfl
  | cons s l ih =>
    intro ready
    have hboard := h s (by simp)
    have hrest := ih fun t ht => h t (by simp [ht])
    cases s with
    | act a =>
      cases a with
      | txdata d => cases hboard
      | usleep us => exact hrest _
      | lcd a b => exact hrest ready
      | leds d => exact hrest ready
      | jtagData c => cases hboard
    | _ => cases hboard

theorem tame_pause (us : Nat) : Tame [usleep us] := fun _ => rfl

theorem tame_readUart : Tame readUart := fun _ => rfl

theorem tame_start : Tame start := by
  have hcommand := fun v => tame_call (.writenUart v (strlen v))
  have hshake : ∀ {l : List Stmt}, Tame l → ∀ v,
      Tame (l ++ writenUart v (strlen v) ++ readUart ++ [usleep 1000000]) := fun hl v =>
    tame_append (tame_append (tame_append hl (hcommand v)) tame_readUart) (tame_pause _)
  have hall := hshake (hshake (hshake (l := []) (fun _ => rfl) comandoAT0) comandoAT1) comandoAT2
  exact tame_append (tame_append hall (tame_onBoard initializeLcd_onBoard))
    (tame_onBoard (onMessage_onBoard 0))

theorem tame_onMessageSelected (count : Int) : Tame (onMessageSelected count) := by
  obtain hnone | ⟨answer, publish, hsome⟩ := onMessageSelected_cases count
  · rw [hnone]
    exact fun _ => rfl
  · rw [hsome]
    exact tame_append (tame_onBoard (imprime_onBoard _ _)) (tame_call (.publishMQTT publish 24))

theorem tame_script (g : Gesture) (count : Int) : Tame (networkedScript g count) := by
  by_cases hg : g = .select
  · have hprint : Tame (altPrintf "Message sent") := by
      unfold Tame
      decide
    have hopen := tame_append (tame_pause 100000)
      (tame_call (.writenUart comandoAT3 (strlen comandoAT3)))
    have hconnect := tame_append (tame_append (tame_append hopen tame_readUart)
      (tame_pause 1000000)) (tame_call .connectMQTT)
    rw [hg]
    exact tame_append (tame_append hconnect (tame_onMessageSelected count)) hprint
  · exact tame_onBoard (script_onBoard hg count)

/-! ## Runs -/

section Runs

variable {σ : Type} {few : Nat} {stp : σ → Event → Option σ} {todo : σ → List Stmt}

/-- Every step works on the head statement, or a button value brings tame statements. -/
def Scripted (stp : σ → Event → Option σ) (todo : σ → List Stmt) : Prop :=
  ∀ p e q, stp p e = some q →
    (∃ s rest l, todo p = s :: rest ∧ micro s e = some l ∧ todo q = l ++ rest) ∨
    (∃ b, e = .button b ∧ Tame (todo q))

theorem scripted_call : Scripted callStep id := by
  intro p e q h
  cases p with
  | nil => cases h
  | cons s rest =>
    obtain ⟨l, hl, rfl⟩ := Option.map_eq_some_iff.mp h
    exact .inl ⟨s, rest, l, rfl, hl, rfl⟩

theorem scripted_main : Scripted (step Networked.main) Config.todo := by
  intro p e q h
  obtain ⟨s, rest, l, hs, hl, rfl⟩ | ⟨b, -, hb, rfl⟩ := step_cases h
  · exact .inl ⟨s, rest, l, hs, hl, rfl⟩
  · obtain ⟨g, count, hscript⟩ := countLoop_script networkedScript p.ctrl b
    refine .inr ⟨b, heard_button hb, ?_⟩
    have hreact : (Networked.main.react p.ctrl b).1 = networkedScript g count := by
      rw [← hscript, ← networked_loop]
      rfl
    rw [hreact]
    exact tame_script g count

theorem txBytes_append (es fs : List Event) : txBytes (es ++ fs) = txBytes es ++ txBytes fs := by
  simp [txBytes, accesses]

theorem line_transmit {tx : Transmitter Byte} {e : Event}
    (h : ∀ d, e = .act (.txdata d) → tx.hold = none) :
    line (transmit tx e) = line tx ++ txBytes [e] := by
  have hquiet : ∀ {e : Event}, txBytes [e] = [] → line tx = line tx ++ txBytes [e] := by
    intro e he
    rw [he, List.append_nil]
  cases e with
  | act a =>
    cases a with
    | txdata d => exact line_write (h d rfl) (low d)
    | usleep us => exact hquiet rfl
    | lcd a b => exact hquiet rfl
    | leds d => exact hquiet rfl
    | jtagData c => exact hquiet rfl
  | status v => exact hquiet rfl
  | rxdata v => exact hquiet rfl
  | compare c => exact hquiet rfl
  | jtagControl v => exact hquiet rfl
  | button b => exact hquiet rfl

/-- The pacing holds, and what was written is under way or has left. -/
def Flowing (few : Nat) (todo : σ → List Stmt) (ms : List Move) (s : Sender σ) : Prop :=
  Paced few (todo s.program) s.waited s.tx ∧ line s.tx = txBytes (own ms)

/-- A write finds the holding register free. -/
theorem flowing_write (hstp : Scripted stp todo) {ms : List Move} {s : Sender σ} {d : Word} {q : σ}
    (hs : Flowing few todo ms s) (h : stp s.program (.act (.txdata d)) = some q) :
    s.tx.hold = none := by
  have hpaced := hs.1
  obtain ⟨x, rest, l, hx, hl, -⟩ | ⟨b, hb, -⟩ := hstp _ _ _ h
  · rw [hx] at hpaced
    exact paced_write hpaced hl
  · cases hb

theorem flowing_step (hfew : drain few ≤ usleepClocks * 1000) (hstp : Scripted stp todo)
    {ms : List Move} {s t : Sender σ} {m : Move} (hs : Flowing few todo ms s)
    (h : senderStep few stp s m = some t) : Flowing few todo (ms ++ [m]) t := by
  obtain ⟨hpaced, hline⟩ := hs
  cases m with
  | tick frame =>
    simp only [senderStep, Option.ite_none_right_eq_some, Option.some.injEq] at h
    obtain ⟨⟨-, hframe⟩, rfl⟩ := h
    have hown : own (ms ++ [.tick frame]) = own ms := by simp [own]
    exact ⟨paced_tick hpaced hframe, by rw [hown, ← hline]; exact line_tick frame s.tx⟩
  | own e =>
    simp only [senderStep, Option.ite_none_right_eq_some] at h
    obtain ⟨hallow, hmap⟩ := h
    obtain ⟨q, hq, rfl⟩ := Option.map_eq_some_iff.mp hmap
    have hown : own (ms ++ [.own e]) = own ms ++ [e] := by simp [own]
    have hfree : ∀ d, e = .act (.txdata d) → s.tx.hold = none := by
      rintro d rfl
      exact flowing_write hstp ⟨hpaced, hline⟩ hq
    refine ⟨?_, by rw [hown, txBytes_append, ← hline]; exact line_transmit hfree⟩
    obtain ⟨x, rest, l, hx, hl, hrest⟩ | ⟨b, rfl, htame⟩ := hstp _ _ _ hq
    · rw [hx] at hpaced
      rw [hrest]
      exact paced_own hfew hpaced hl hallow
    · have hresidual := hpaced.residual
      exact ⟨hpaced.shift, by simp only [transmit]; omega, false, htame false,
        fun hf => by cases hf⟩

theorem run_flowing (hfew : drain few ≤ usleepClocks * 1000) (hstp : Scripted stp todo)
    {ms : List Move} {p : σ} {s : Sender σ} (hp : Tame (todo p))
    (h : run (senderStep few stp) ⟨p, 0, idle⟩ ms = some s) : Flowing few todo ms s := by
  have hstart : Flowing few todo [] ⟨p, 0, idle⟩ :=
    ⟨⟨Nat.zero_le _, Nat.zero_le _, false, hp false, fun hf => by cases hf⟩, rfl⟩
  exact run_history (P := Flowing few todo) (fun _ _ _ _ => flowing_step hfew hstp) hstart h

/-- Every write to TXDATA finds TRDY set; what was written is under way or has left, in
order, and has left after two frames without a write. -/
def Intact (few : Nat) (stp : σ → Event → Option σ) (ms : List Move) (s : Sender σ) : Prop :=
  (∀ d t, senderStep few stp s (.own (.act (.txdata d))) = some t → ready s.tx = true) ∧
  line s.tx = txBytes (own ms) ∧
  ∀ frames : List Nat, drain few ≤ frames.length → (∀ frame ∈ frames, frame ≤ longest few) →
    (ticks s.tx frames).out = txBytes (own ms)

theorem intact_of_flowing (hstp : Scripted stp todo) {ms : List Move} {s : Sender σ}
    (hs : Flowing few todo ms s) : Intact few stp ms s := by
  refine ⟨?_, hs.2, ?_⟩
  · intro d t h
    simp only [senderStep, Option.ite_none_right_eq_some] at h
    obtain ⟨q, hq, -⟩ := Option.map_eq_some_iff.mp h.2
    rw [ready, flowing_write hstp hs hq]
    rfl
  · intro frames hlong hframes
    have hresidual := residual_ticks hframes s.tx
    have hbound := hs.1.residual
    have hzero : residual (longest few) (ticks s.tx frames) = 0 := by omega
    rw [out_of_residual hzero, line_ticks, hs.2]

end Runs

/-- No transmit overrun: every sequence of calls of the sending functions, and every run of
`main`, writes to TXDATA only when the transmitter is ready, so that exactly the low bytes
written are shifted out. -/
theorem no_transmit_overrun {few : Nat} (hfew : drain few ≤ usleepClocks * 1000) :
    (∀ (calls : List Call) ms s,
      run (senderStep few callStep) ⟨calls.flatMap Call.code, 0, idle⟩ ms = some s →
        Intact few callStep ms s) ∧
    (∀ ms s, run (senderStep few (step Networked.main)) ⟨Networked.boot, 0, idle⟩ ms = some s →
      Intact few (step Networked.main) ms s) := by
  constructor
  · intro calls ms s h
    exact intact_of_flowing scripted_call
      (run_flowing hfew scripted_call (tame_calls calls) h)
  · intro ms s h
    exact intact_of_flowing scripted_main (run_flowing hfew scripted_main tame_start h)

/-- The start of a call that sends the letter 'A'. -/
def sendA : List Move :=
  [.tick 4350, .own (.status 0x40), .own (.act (.txdata 0x41)), .tick 4360]

theorem no_transmit_overrun_A :
    Intact 10 callStep sendA
      ⟨[usleep 1000, iowrTxdata 0x0D, usleep 1000, iowrTxdata 0x0A], 1,
        ⟨none, some (0x41, 4360), []⟩⟩ :=
  (no_transmit_overrun (by decide)).1 [.writenUart (ascii "A") 1] sendA _ (by decide)

end Transmit
