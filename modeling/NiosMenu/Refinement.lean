import NiosMenu.Menu
import NiosMenu.Pauses

/-!
# The networked program refines the stand-alone one

Seen from the push buttons, the display and the LEDs, the networked program does what
the stand-alone one does, later but never faster; it gets as far as its waits end.
-/
namespace Refinement

open Firmware Reactive Menu Devices Pauses

/-- Button reads, custom instructions of the LCD and writes to the LED port. -/
inductive Ui where
  | read (b : Word)
  | lcd (dataa datab : Word)
  | leds (data : Word)
  deriving DecidableEq, Repr

def mark : Action → List (Mark Ui)
  | .usleep us => [.pause us]
  | .lcd dataa datab => [.event (.lcd dataa datab)]
  | .leds data => [.event (.leds data)]
  | .txdata _ | .jtagData _ => []

def askMark (b : Word) : List (Mark Ui) := [.event (.read b)]

/-- The user-interface events of a run and the pauses between them. -/
def marks (es : List Event) : List (Mark Ui) := es.flatMap (emitted mark askMark [])

/-- The statements of a script, as events and pauses. -/
def scriptMarks (l : List Stmt) : List (Mark Ui) := l.flatMap (owing mark [])

def marked (loop : Poll → Word → List Stmt × Poll) : Emission (firmware loop) (Mark Ui) :=
  emission loop mark askMark [] fun _ => rfl

section Runs

variable {script : Gesture → Int → List Stmt} {loop : Poll → Word → List Stmt × Poll}

/-- The marks of a list of button values from the menu's first state. -/
def replyMarks (script : Gesture → Int → List Stmt) : State → List Word → List (Mark Ui) :=
  replies fun g o b => askMark b ++ scriptMarks (script g o.val)

/-- The marks of every run, up to what the current script still has to do. -/
theorem run_marks (hloop : loop = countLoop script) {start : List Stmt} {es : List Event}
    {c : Config Stmt Poll} (h : run (step (firmware loop)) ⟨start, poll first⟩ es = some c) :
    marks es ++ scriptMarks c.todo = scriptMarks start ++ replyMarks script first (buttons es) := by
  have hrun := (marked loop).run_emit h
  have hout := outputs_poll hloop (marked loop) first (buttons es)
  exact hrun.trans (congrArg (scriptMarks start ++ ·) hout)

end Runs

theorem scriptMarks_append (l m : List Stmt) :
    scriptMarks (l ++ m) = scriptMarks l ++ scriptMarks m := List.flatMap_append

/-- Sending to the Wi-Fi module only takes time. -/
theorem slower_link {l : List Stmt} (h : ∀ s ∈ l, onLink s = true) :
    Slower (scriptMarks l) [] := by
  refine ⟨List.nil_sublist _, ?_⟩
  rw [scriptMarks, visible, List.filterMap_flatMap]
  apply List.flatMap_eq_nil_iff.mpr
  intro s hs
  have hlink := h s hs
  cases s with
  | act a => cases a <;> first | rfl | cases hlink
  | _ => rfl

/-- A command line with its answer and the pause behind it goes in front of anything. -/
theorem slower_handshake (v : List Byte) {m m' : List (Mark Ui)} (hm : Slower m m') :
    Slower (scriptMarks (Networked.writenUart v (strlen v)) ++ (scriptMarks Networked.readUart ++
      (scriptMarks [usleep 1000000] ++ m))) m' := by
  have hread : Slower (scriptMarks Networked.readUart) [] := slower_refl []
  have hpause : Slower (scriptMarks [usleep 1000000]) [] := slower_link (by simp)
  have hcommand := slower_link (writenUart_onLink v (strlen v))
  exact slower_append hcommand (slower_append hread (slower_append hpause hm))

theorem start_slower : Slower (scriptMarks Networked.start) (scriptMarks Standalone.start) := by
  have hboard : Slower (scriptMarks Networked.initializeLcd ++ scriptMarks (Networked.onMessage 0))
      (scriptMarks Standalone.start) := by
    rw [← scriptMarks_append]
    exact slower_refl _
  simp only [Networked.start, scriptMarks_append, List.append_assoc]
  exact slower_handshake _ (slower_handshake _ (slower_handshake _ hboard))

/-- Between two button reads the networked script only adds pauses. -/
theorem script_slower (g : Gesture) (o : Fin 5) :
    Slower (scriptMarks (networkedScript g o.val)) (scriptMarks (standaloneScript g o.val)) := by
  by_cases hg : g = .select
  · obtain ⟨publish, hselected⟩ : ∃ publish, Networked.onMessageSelected o.val =
        Standalone.onMessageSelected o.val ++ Networked.publishMQTT publish 24 := by
      fin_cases o <;> exact ⟨_, rfl⟩
    have hsent := slower_append (slower_link (publishMQTT_onLink publish 24))
      (slower_link (altPrintf_onLink "Message sent"))
    have hanswer := slower_append (slower_refl (scriptMarks (Standalone.onMessageSelected o.val)))
      hsent
    have htraffic := slower_append (slower_link connectMQTT_onLink) hanswer
    have hpause := slower_refl (scriptMarks [usleep 100000])
    have hall := slower_append hpause (slower_handshake Networked.comandoAT3 htraffic)
    rw [hg, networkedScript, standaloneScript, hselected]
    simpa only [scriptMarks_append, List.append_assoc, List.nil_append, List.append_nil] using hall
  · rw [standalone_script hg]
    exact slower_refl _

theorem replies_slower (m : State) (bs : List Word) :
    Slower (replyMarks networkedScript m bs) (replyMarks standaloneScript m bs) := by
  induction bs generalizing m with
  | nil => exact slower_refl []
  | cons b bs ih =>
    have hscript := script_slower (gesture m b) (press m b).option
    exact slower_append (slower_append (slower_refl (askMark b)) hscript) (ih (press m b))

/-- The whole networked script of the inputs so far against the stand-alone run. -/
theorem marks_slower {es es' : List Event} {c c' : Config Stmt Poll}
    (h : run (step Networked.main) Networked.boot es = some c)
    (h' : run (step Standalone.main) Standalone.boot es' = some c') (hpoll : c'.todo = [])
    (hbuttons : buttons es' = buttons es) :
    Slower (marks es ++ scriptMarks c.todo) (marks es') := by
  have hnetworked := run_marks networked_loop h
  have hstandalone := run_marks standalone_loop h'
  have hnone : scriptMarks c'.todo = [] := by
    rw [hpoll]
    rfl
  rw [hnone, List.append_nil, hbuttons] at hstandalone
  rw [hnetworked, hstandalone]
  exact slower_append start_slower (replies_slower first _)

/-- The statements that can wait for a device: the polls of TRDY, the `readUart` calls and
the writes to the console. -/
def Waits (s : Stmt) : Prop := s = .pollTrdy ∨ s = .pollRrdy ∨ ∃ c, s = .jtagWrite c

/-- Every wait that begins before a given button read ends. -/
def WaitsReturn (x : Execution Networked.main) (count : Nat) : Prop :=
  ∀ m s rest, (buttons (x.trace m)).length ≤ count → (x.config m).todo = s :: rest → Waits s →
    x.Returned m

theorem reaches_poll {x : Execution Networked.main} {count : Nat}
    (hstart : x.config 0 = Networked.boot) (hwaits : WaitsReturn x count) :
    ∃ m, (x.config m).todo = [] ∧ (buttons (x.trace m)).length = count := by
  refine x.asks (fun s => s.written = true) count ?_ ?_ ?_
  · rw [hstart]
    exact start_written
  · exact loop_written
  · intro m s rest hcount hm hs
    cases s with
    | act a =>
      refine x.returned_of_step hm ?_
      intro e l hl
      cases e <;> simp only [Networked.main, firmware_micro, micro, reduceCtorEq,
        Option.ite_none_right_eq_some, Option.some.injEq] at hl
      exact hl.2.symm
    | pollTrdy => exact hwaits m _ rest hcount hm (.inl rfl)
    | pollRrdy => exact hwaits m _ rest hcount hm (.inr (.inl rfl))
    | readRxdata => cases hs
    | checkByte c => cases hs
    | jtagWrite c => exact hwaits m _ rest hcount hm (.inr (.inr ⟨c, rfl⟩))

/-- The networked program refines the stand-alone one: on the same button values its
user-interface events are a prefix, no gap between them is shorter, and it reaches all of
them up to any button read before which its waits, on the console too, have ended. -/
theorem networked_refines :
    (∀ bs, ∃ es' c', run (step Standalone.main) Standalone.boot es' = some c' ∧ c'.todo = [] ∧
      buttons es' = bs) ∧
    (∀ es c es' c', run (step Networked.main) Networked.boot es = some c →
      run (step Standalone.main) Standalone.boot es' = some c' → c'.todo = [] →
      buttons es' = buttons es → visible (marks es) <+: visible (marks es') ∧
        List.Forall₂ (fun a b => a.2 = b.2 ∧ b.1 ≤ a.1) (gaps 0 (marks es))
          ((gaps 0 (marks es')).take (visible (marks es)).length)) ∧
    (∀ (x : Execution Networked.main) count, x.config 0 = Networked.boot → WaitsReturn x count →
      ∃ m, (x.config m).todo = [] ∧ (buttons (x.trace m)).length = count ∧
        ∀ es' c', run (step Standalone.main) Standalone.boot es' = some c' → c'.todo = [] →
          buttons es' = buttons (x.trace m) →
            visible (marks (x.trace m)) = visible (marks es')) := by
  refine ⟨?_, ?_, ?_⟩
  · intro bs
    exact ⟨_, _, standalone_run bs, rfl, answered_buttons Standalone.start bs⟩
  · intro es c es' c' h h' hpoll hbuttons
    exact slower_front (marks_slower h h' hpoll hbuttons)
  · intro x count hstart hwaits
    obtain ⟨m, hm, hcount⟩ := reaches_poll hstart hwaits
    refine ⟨m, hm, hcount, ?_⟩
    intro es' c' h' hpoll hbuttons
    have h : run (step Networked.main) Networked.boot (x.trace m) = some (x.config m) :=
      hstart ▸ x.run_trace m
    have hslower := marks_slower h h' hpoll hbuttons
    have hnone : scriptMarks (x.config m).todo = [] := by
      rw [hm]
      rfl
    rw [hnone, List.append_nil] at hslower
    exact hslower.events

/-- A selection of the first option and the poll that leaves it. -/
def oneSelection : List Event := unblocked [13#32, 14#32]

theorem oneSelection_run :
    run (step Networked.main) Networked.boot oneSelection = some ⟨[], .menu 0⟩ :=
  networked_run [13#32, 14#32]

theorem oneSelection_buttons : buttons oneSelection = [13#32, 14#32] :=
  answered_buttons Networked.start _

/-- The modem never takes the first byte of the next selection. -/
def nextSelection : List Event := oneSelection ++ [.button 13#32, .act (.usleep 100000)]

def sendingLine : Config Stmt Poll := ⟨(networkedScript .select 0).tail, .selection 0⟩

theorem nextSelection_run :
    run (step Networked.main) Networked.boot nextSelection = some sendingLine :=
  run_join oneSelection_run (by decide +kernel)

theorem sendingLine_waits : step Networked.main sendingLine (.status 0) = some sendingLine := by
  decide +kernel

def sending : Execution Networked.main := Execution.stall nextSelection_run sendingLine_waits

theorem sending_poll : sending.config oneSelection.length = ⟨[], .menu 0⟩ := by
  have hrun := Execution.stall_config nextSelection_run sendingLine_waits oneSelection.length
  have hfront : nextSelection.take oneSelection.length = oneSelection := List.take_left
  rw [hfront, oneSelection_run] at hrun
  exact (Option.some.inj hrun).symm

theorem sending_third :
    buttons (sending.trace (oneSelection.length + 1)) = [13#32, 14#32, 13#32] := by
  have hshort : oneSelection.length + 1 ≤ nextSelection.length := by
    rw [nextSelection, List.length_append, List.length_cons]
    omega
  have htrace : sending.trace (oneSelection.length + 1) = nextSelection.take _ :=
    Execution.stall_trace nextSelection_run sendingLine_waits hshort
  rw [htrace, nextSelection, List.take_length_add_append, buttons, List.filterMap_append]
  exact congrArg (· ++ [13#32]) oneSelection_buttons

/-- Every wait before the second poll returns, and behind it a third button has been read. -/
theorem sending_returns : WaitsReturn sending 2 := by
  intro m s rest hcount hm _
  obtain hlt | hle := Nat.lt_or_ge oneSelection.length m
  · have hfirst : sending.trace (oneSelection.length + 1) <+: sending.trace m :=
      sending.trace_prefix (by omega)
    have hread := hfirst.filterMap heard
    have hmore : 3 ≤ (buttons (sending.trace m)).length := by
      have hthird := hread.length_le
      rwa [← buttons, sending_third] at hthird
    omega
  · apply sending.returned_of_shorter hle hm
    rw [sending_poll]
    exact Nat.zero_le _

/-- The second poll of that run against the stand-alone program on the same two buttons. -/
theorem networked_refines_selection : ∃ m es', (sending.config m).todo = [] ∧
    (buttons (sending.trace m)).length = 2 ∧ buttons es' = buttons (sending.trace m) ∧
    visible (marks (sending.trace m)) = visible (marks es') ∧
    List.Forall₂ (fun a b => a.2 = b.2 ∧ b.1 ≤ a.1) (gaps 0 (marks (sending.trace m)))
      ((gaps 0 (marks es')).take (visible (marks (sending.trace m))).length) := by
  obtain ⟨hstandalone, hslower, hreaches⟩ := networked_refines
  obtain ⟨m, hm, hcount, hevents⟩ := hreaches sending 2 rfl sending_returns
  obtain ⟨es', c', hrun', hpoll', hbuttons⟩ := hstandalone (buttons (sending.trace m))
  have hrun : run (step Networked.main) Networked.boot (sending.trace m) =
      some (sending.config m) := sending.run_trace m
  exact ⟨m, es', hm, hcount, hbuttons, hevents es' c' hrun' hpoll' hbuttons,
    (hslower _ _ _ _ hrun hrun' hpoll' hbuttons).2⟩

/-! ## A console without a reader -/

/-- A selection of the first option up to its message on the console. -/
def beforePrint : List Stmt :=
  [usleep 100000] ++ Networked.writenUart Networked.comandoAT3 (strlen Networked.comandoAT3) ++
  Networked.readUart ++ [usleep 1000000] ++ Networked.connectMQTT ++ Networked.onMessageSelected 0

def printing : Config Stmt Poll := ⟨altPrintf "Message sent", .selection 0⟩

/-- The start-up, with no wait that blocks. -/
def poweredUp : List Event := unblocked []

theorem poweredUp_run :
    run (step Networked.main) Networked.boot poweredUp = some ⟨[], .menu 0⟩ := networked_run []

theorem poweredUp_buttons : buttons poweredUp = [] := answered_buttons Networked.start []

/-- The program waits for nothing until it wants to print. -/
def fullConsole : List Event := poweredUp ++ .button 13#32 :: beforePrint.flatMap serve

theorem fullConsole_run :
    run (step Networked.main) Networked.boot fullConsole = some printing := by
  decide +kernel

theorem printing_waits : step Networked.main printing (.jtagControl 0) = some printing := by
  decide

/-- Every UART wait of the selection has the whole message behind it. -/
def ahead (c : Config Stmt Poll) : Bool :=
  match c.todo with
  | [] => false
  | s :: rest => (s != .pollTrdy && s != .pollRrdy) || 12 ≤ rest.length

theorem selection_ahead :
    along (step Networked.main) ahead ⟨networkedScript .select 0, .selection 0⟩
      (beforePrint.flatMap serve) = true := by
  decide +kernel

/-- After the first button read the execution is inside the selection. -/
theorem fullConsole_ahead {n : Nat} {c : Config Stmt Poll} (hn : poweredUp.length < n)
    (h : run (step Networked.main) Networked.boot (fullConsole.take n) = some c) :
    ahead c = true := by
  obtain ⟨k, hk⟩ : ∃ k, n = poweredUp.length + (k + 1) :=
    ⟨n - poweredUp.length - 1, by omega⟩
  rw [hk, fullConsole, List.take_length_add_append, List.take_succ_cons] at h
  obtain ⟨idle, hidle, hrest⟩ := run_split h
  have hpoll : idle = ⟨[], .menu 0⟩ := Option.some.inj (hidle.symm.trans poweredUp_run)
  rw [hpoll] at hrest
  exact along_take selection_ahead hrest

/-- The console is never read: the program stops at its message for ever. -/
def blocked : Execution Networked.main := Execution.stall fullConsole_run printing_waits

theorem blocked_run (m : Nat) :
    run (step Networked.main) Networked.boot (fullConsole.take m) = some (blocked.config m) :=
  Execution.stall_config fullConsole_run printing_waits m

theorem blocked_poll : blocked.config poweredUp.length = ⟨[], .menu 0⟩ := by
  have hfirst := blocked_run poweredUp.length
  have hfront : fullConsole.take poweredUp.length = poweredUp := List.take_left
  rw [hfront] at hfirst
  exact Option.some.inj (hfirst.symm.trans poweredUp_run)

theorem blocked_last {m : Nat} (hm : fullConsole.length ≤ m) : blocked.config m = printing := by
  have hfull := blocked_run m
  rw [List.take_of_length_le hm] at hfull
  exact Option.some.inj (hfull.symm.trans fullConsole_run)

/-- Up to its first poll the program has read no button. -/
theorem blocked_buttons {m : Nat} (hm : m ≤ poweredUp.length) :
    buttons (blocked.trace m) = [] := by
  have hshort : poweredUp.length ≤ fullConsole.length := by
    rw [fullConsole, List.length_append]
    omega
  have hfront : fullConsole.take poweredUp.length = poweredUp := List.take_left
  have htrace : blocked.trace poweredUp.length = poweredUp :=
    (Execution.stall_trace fullConsole_run printing_waits hshort).trans hfront
  have hprefix : buttons (blocked.trace m) <+: buttons (blocked.trace poweredUp.length) :=
    (blocked.trace_prefix hm).filterMap _
  rw [htrace, poweredUp_buttons] at hprefix
  exact List.prefix_nil.mp hprefix

/-- Before the first poll and inside the selection every UART wait returns. -/
theorem blocked_returned {m : Nat} {s : Stmt} {rest : List Stmt}
    (hm : (blocked.config m).todo = s :: rest) (hs : s = .pollTrdy ∨ s = .pollRrdy) :
    blocked.Returned m := by
  obtain hlt | hle := Nat.lt_or_ge poweredUp.length m
  · have hahead := fullConsole_ahead hlt (blocked_run m)
    have hlong : 12 ≤ rest.length := by
      rw [ahead, hm] at hahead
      obtain rfl | rfl := hs <;> simpa using hahead
    apply blocked.returned_of_shorter (Nat.le_add_right m fullConsole.length) hm
    rw [blocked_last (Nat.le_add_left _ _)]
    exact hlong
  · apply blocked.returned_of_shorter hle hm
    rw [blocked_poll]
    exact Nat.zero_le _

/-- All polls of TRDY and all `readUart` calls return, and yet the second button read is
never reached: the console driver waits for room for ever. -/
theorem console_blocks :
    ∃ x : Execution Networked.main, x.config 0 = Networked.boot ∧
      (∀ m s rest, (x.config m).todo = s :: rest → s = .pollTrdy ∨ s = .pollRrdy →
        x.Returned m) ∧
      ∀ m, ¬ ((x.config m).todo = [] ∧ (buttons (x.trace m)).length = 1) := by
  refine ⟨blocked, rfl, fun m s rest => blocked_returned, ?_⟩
  intro m ⟨hm, hcount⟩
  obtain hlt | hle := Nat.lt_or_ge poweredUp.length m
  · have hahead := fullConsole_ahead hlt (blocked_run m)
    simp [ahead, hm] at hahead
  · rw [blocked_buttons hle] at hcount
    cases hcount

end Refinement
