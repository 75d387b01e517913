import NiosMenu.AtStream
import NiosMenu.LcdController

/-!
# What is on the display and what is sent

At every poll the display shows the label of the control point, through the lcd module
as well as without its lag; the published message is the label in capitals, except for
the third option.
-/
namespace Display

open Firmware Reactive Menu Devices LcdModule LcdBus LcdController AtStream Framing

def opcao : Fin 5 → List Byte
  | 0 => Networked.opcao1
  | 1 => Networked.opcao2
  | 2 => Networked.opcao3
  | 3 => Networked.opcao4
  | 4 => Networked.opcao5

def answer : Fin 5 → List Byte
  | 0 => Networked.answer1
  | 1 => Networked.answer2
  | 2 => Networked.answer3
  | 3 => Networked.answer4
  | 4 => Networked.answer5

/-- The text of a control point: the array without its last element. -/
def label (m : State) : List Byte :=
  if m.selecting then (answer m.option).dropLast else (opcao m.option).dropLast

/-- The LCD commands of the custom instructions issued so far. -/
def commands (es : List Event) : List Command := (accesses es).flatMap lcdCommand

/-- The custom instructions issued so far and the pauses between them. -/
def lcdOps (es : List Event) : List Op := (accesses es).flatMap busOp

def shown : Emission Networked.main Command :=
  emission Networked.loop lcdCommand (fun _ => []) [] fun _ => rfl

@[simp] theorem shown_asked (b : Word) : shown.asked b = [] := rfl

theorem emitted_shown (es : List Event) : es.flatMap shown.emit = commands es :=
  emitted_accesses lcdCommand es

/-- The set-up of `initialize_Lcd`: function set, display off and on, entry mode, home, clear. -/
def initCommands : List Command :=
  [0x38, 0x38, 0x38, 0x38, 0x08, 0x0C, 0x06, 0x02, 0x01].map (Command.mk false)

theorem initCommands_increment (d : Controller) : (execAll d initCommands).increment = true := rfl

/-- Turning and leaving show a label, selecting shows an answer, polling shows nothing new. -/
def scriptCommands : Gesture → Fin 5 → List Command
  | .turn, o | .leave, o => imprimeCommands (opcao o).dropLast
  | .select, o => imprimeCommands (answer o).dropLast
  | .wait, _ | .stay, _ => []

/-! ## The commands of each function -/

theorem link_commands {l : List Stmt} (h : ∀ s ∈ l, onLink s = true) :
    l.flatMap shown.owed = [] := by
  apply List.flatMap_eq_nil_iff.mpr
  intro s hs
  have hlink := h s hs
  cases s with
  | act a => cases a <;> first | rfl | cases hlink
  | pollTrdy => rfl
  | jtagWrite c => rfl
  | _ => cases hlink

/-- With `sizeof` for its size, `imprime` prints the array without its last element. -/
theorem imprime_shown (v : List Byte) :
    (Networked.imprime v (sizeof v)).flatMap shown.owed = imprimeCommands v.dropLast := by
  have hlast : (sizeof v - 1).toNat = v.length - 1 := by
    rw [sizeof]
    omega
  rw [List.dropLast_eq_take, ← hlast]
  apply imprime_commands
  rw [sizeof]
  omega

theorem onMessage_shown (o : Fin 5) :
    (Networked.onMessage o.val).flatMap shown.owed = imprimeCommands (opcao o).dropLast := by
  have hoption : Networked.onMessage o.val = Networked.imprime (opcao o) (sizeof (opcao o)) := by
    fin_cases o <;> rfl
  rw [hoption, imprime_shown]

theorem onMessageSelected_shown (o : Fin 5) :
    (Networked.onMessageSelected o.val).flatMap shown.owed =
      imprimeCommands (answer o).dropLast := by
  have hoption : Networked.onMessageSelected o.val =
      Networked.imprime (answer o) (sizeof (answer o)) ++ Networked.publishMQTT (publish o) 24 := by
    fin_cases o <;> rfl
  rw [hoption, List.flatMap_append, imprime_shown, link_commands (publishMQTT_onLink _ _),
    List.append_nil]

theorem onLed_shown (count : Int) : (Networked.onLed count).flatMap shown.owed = [] := by
  unfold Networked.onLed
  split <;> rfl

theorem start_commands :
    Networked.start.flatMap shown.owed = initCommands ++ imprimeCommands (label first) := by
  have hcommand := fun v n => link_commands (writenUart_onLink v n)
  have hsetup : Networked.initializeLcd.flatMap shown.owed = initCommands := rfl
  have hmessage : (Networked.onMessage 0).flatMap shown.owed = imprimeCommands (label first) :=
    onMessage_shown 0
  have hpause : ([usleep 1000000] : List Stmt).flatMap shown.owed = [] := rfl
  have hread : Networked.readUart.flatMap shown.owed = [] := rfl
  simp only [Networked.start, List.flatMap_append, hcommand, hsetup, hmessage, hpause, hread,
    List.nil_append]

theorem script_commands (g : Gesture) (o : Fin 5) :
    (networkedScript g o.val).flatMap shown.owed = scriptCommands g o := by
  have hpause : ∀ us, ([usleep us] : List Stmt).flatMap shown.owed = [] := fun _ => rfl
  cases g with
  | turn => rw [networkedScript, List.flatMap_append, hpause, onMessage_shown]; rfl
  | wait => exact hpause _
  | select =>
    have hread : Networked.readUart.flatMap shown.owed = [] := rfl
    simp only [networkedScript, List.flatMap_append, hpause, hread, onMessageSelected_shown,
      link_commands (writenUart_onLink _ _), link_commands connectMQTT_onLink,
      link_commands (altPrintf_onLink _), List.nil_append, List.append_nil]
    rfl
  | stay => exact onLed_shown _
  | leave => rw [networkedScript, List.flatMap_append, onLed_shown, onMessage_shown]; rfl

/-! ## Runs -/

theorem run_commands {es : List Event} {c : Config Stmt Poll}
    (h : run (step Networked.main) Networked.boot es = some c) (hpoll : c.todo = []) :
    commands es = initCommands ++ imprimeCommands (label first) ++
      replies (fun g o _ => scriptCommands g o) first (buttons es) := by
  have hrun := shown.run_emit_idle h hpoll
  have hout := outputs_poll networked_loop shown first (buttons es)
  simp only [shown_asked, List.nil_append, script_commands] at hout
  rw [emitted_shown] at hrun
  rw [hrun, ← start_commands]
  exact congrArg _ hout

theorem label_length (m : State) : (label m).length < 80 := by
  obtain ⟨o, s⟩ := m
  revert o s
  decide

theorem label_last (m : State) : (label m).getLast? ≠ some blank := by
  obtain ⟨o, s⟩ := m
  revert o s
  decide

/-- One button value keeps the display and the menu together. -/
theorem typed_press {d : Controller} {m : State} (h : Typed d (label m)) (b : Word) :
    Typed (execAll d (scriptCommands (gesture m b) (press m b).option)) (label (press m b)) := by
  have himprime : ∀ n : State, Typed (execAll d (imprimeCommands (label n))) (label n) :=
    fun n => typed_imprime d h.increment (label n) (label_length n)
  cases hg : gesture m b with
  | turn =>
    have hlabel : label (press m b) = (opcao (press m b).option).dropLast := by
      simp [label, press, hg]
    rw [scriptCommands, ← hlabel]
    exact himprime _
  | wait => simpa [scriptCommands, press, hg] using h
  | select =>
    have hlabel : label (press m b) = (answer (press m b).option).dropLast := by
      simp [label, press, hg]
    rw [scriptCommands, ← hlabel]
    exact himprime _
  | stay => simpa [scriptCommands, press, hg] using h
  | leave =>
    have hlabel : label (press m b) = (opcao (press m b).option).dropLast := by
      simp [label, press, hg]
    rw [scriptCommands, ← hlabel]
    exact himprime _

theorem typed_presses {d : Controller} {m : State} (h : Typed d (label m)) (bs : List Word) :
    Typed (execAll d (replies (fun g o _ => scriptCommands g o) m bs)) (label (presses m bs)) := by
  induction bs generalizing d m with
  | nil => exact h
  | cons b bs ih =>
    rw [replies_cons, execAll_append, presses_cons]
    exact ih (typed_press h b)

/-- At every poll the commands issued so far leave the label of the control point. -/
theorem run_typed {es : List Event} {c : Config Stmt Poll}
    (h : run (step Networked.main) Networked.boot es = some c) (hpoll : c.todo = [])
    (d : Controller) :
    Typed (execAll d (commands es)) (label (presses first (buttons es))) := by
  rw [run_commands h hpoll, execAll_append, execAll_append]
  exact typed_presses
    (typed_imprime _ (initCommands_increment d) (label first) (label_length first)) _

theorem imprimeCommands_last (cs : List Command) (s : List Byte) :
    (cs ++ imprimeCommands s).getLast? = some noEffect := by
  rw [imprimeCommands, ← List.append_assoc]
  exact List.getLast?_concat

/-- Every script that shows something ends with the no-effect 0x00. -/
theorem scriptCommands_last (g : Gesture) (o : Fin 5) (cs : List Command)
    (h : cs.getLast? = some noEffect) :
    (cs ++ scriptCommands g o).getLast? = some noEffect := by
  cases g with
  | turn => exact imprimeCommands_last cs _
  | wait => simpa [scriptCommands] using h
  | select => exact imprimeCommands_last cs _
  | stay => simpa [scriptCommands] using h
  | leave => exact imprimeCommands_last cs _

theorem replies_last (m : State) (bs : List Word) (cs : List Command)
    (h : cs.getLast? = some noEffect) :
    (cs ++ replies (fun g o _ => scriptCommands g o) m bs).getLast? = some noEffect := by
  induction bs generalizing m cs with
  | nil => simpa using h
  | cons b bs ih =>
    rw [replies_cons, ← List.append_assoc]
    exact ih _ _ (scriptCommands_last _ _ cs h)

theorem run_last {es : List Event} {c : Config Stmt Poll}
    (h : run (step Networked.main) Networked.boot es = some c) (hpoll : c.todo = []) :
    (commands es).getLast? = some noEffect := by
  rw [run_commands h hpoll]
  exact replies_last _ _ _ (imprimeCommands_last _ _)

/-! ## Through the lcd module -/

/-- The custom instructions of a run reach the display, all but the last one. -/
theorem module_commands (es : List Event) {r : Regs} (hen : r.en = false) (hstate : r.state = false)
    {t : Nat} {is : List (Nat × Clock)} (hclocks : Carries t (lcdOps es) is) :
    falls r (is.map Prod.snd) = (commands es).dropLast ∧
      held (LcdModule.run r (is.map Prod.snd)) = (commands es).getLast? := by
  have hlaw := carries_falls hclocks hstate
  have hnone : held r = none := by simp [held, hen]
  have hissued : (issued t (lcdOps es)).map Prod.snd = commands es :=
    issued_commands t (accesses es)
  rw [hissued, hnone, Option.or_none] at hlaw
  exact hlaw

/-- The program, the module and the display together: at every poll of the push buttons
the glass shows the label of the control point and only the no-effect 0x00 is pending. -/
theorem glass_shows_label {es : List Event} {c : Config Stmt Poll}
    (h : run (step Networked.main) Networked.boot es = some c) (hpoll : c.todo = [])
    {r : Regs} (hen : r.en = false) (hstate : r.state = false) (d : Controller)
    {t : Nat} {is : List (Nat × Clock)} (hclocks : Carries t (lcdOps es) is) :
    (∀ count, c.ctrl = .menu count → ∃ o : Fin 5, count = o.val ∧
      Shows (execAll d (falls r (is.map Prod.snd))) (opcao o).dropLast) ∧
    (∀ count, c.ctrl = .selection count → ∃ o : Fin 5, count = o.val ∧
      Shows (execAll d (falls r (is.map Prod.snd))) (answer o).dropLast) ∧
    held (LcdModule.run r (is.map Prod.snd)) = some noEffect := by
  obtain ⟨hfalls, hheld⟩ := module_commands es hen hstate hclocks
  have hlast := run_last h hpoll
  have hctrl := networked_ctrl h
  have hall : commands es = (commands es).dropLast ++ [noEffect] :=
    (List.dropLast_append_getLast? _ hlast).symm
  have hshows : Shows (execAll d (falls r (is.map Prod.snd)))
      (label (presses first (buttons es))) := by
    have htyped := (run_typed h hpoll d).shows
    rw [hall, execAll_append, execAll_cons, exec_noEffect, execAll_nil] at htyped
    rw [hfalls]
    exact htyped
  refine ⟨?_, ?_, hheld.trans hlast⟩
  · intro count hcount
    obtain ⟨hsel, hval⟩ := poll_menu (hctrl ▸ hcount)
    exact ⟨_, hval, by simpa [label, hsel] using hshows⟩
  · intro count hcount
    obtain ⟨hsel, hval⟩ := poll_selection (hctrl ▸ hcount)
    exact ⟨_, hval, by simpa [label, hsel] using hshows⟩

theorem glass_shows_label_oneSelection :
    Shows (execAll blankDisplay
      (falls powerUp ((shortest 0 (lcdOps (unblocked [13#32]))).map Prod.snd)))
      (answer 0).dropLast := by
  obtain ⟨o, ho, hshows⟩ := (glass_shows_label (networked_run [13#32]) rfl (r := powerUp) rfl rfl
    blankDisplay (carries_shortest 0 _)).2.1 0 rfl
  have hzero : o = 0 := Fin.ext (by simpa using ho.symm)
  exact hzero ▸ hshows

/-! ## What is sent -/

/-- ASCII upper case. -/
def upper (b : Byte) : Byte := if 0x61 ≤ b.toNat ∧ b.toNat ≤ 0x7A then b - 0x20 else b

/-- The application message of a PUBLISH packet: the bytes after the topic. -/
def message : Frame Byte → Option (List Byte)
  | .payload (0x30 :: _ :: hi :: lo :: rest) => some (rest.drop (256 * hi.toNat + lo.toNat))
  | _ => none

/-- The application messages that the Wi-Fi module receives while it reads on from a mode. -/
def published (m : Mode Byte) (es : List Event) : List (List Byte) :=
  (scan atFormat m (txBytes es)).1.filterMap message

theorem episode_messages (o : Fin 5) :
    (episodeFrames o).filterMap message = [(publish o).drop 16] := by
  revert o
  decide

/-- Capitals of the label, except that the third packet was encoded for another label. -/
theorem upper_label_iff (o : Fin 5) :
    (publish o).drop 16 = (label ⟨o, false⟩).map upper ↔ (o.val : Int) ≠ 2 := by
  revert o
  decide

/-- At a poll the Wi-Fi module is between two lines. -/
theorem poll_mode {es : List Event} {c : Config Stmt Poll}
    (h : run (step Networked.main) Networked.boot es = some c) (hpoll : c.todo = []) :
    (scan atFormat (.line []) (txBytes es)).2 = .line [] := by
  have hw := run_wire h
  rw [hpoll, List.flatMap_nil, List.append_nil] at hw
  rw [hw, scan_items atFormat _ (items_ok _)]

/-- The bytes of one selection, up to what its script still has to write. -/
theorem selection_wire {o : Fin 5} {es : List Event} {c : Config Stmt Poll}
    (h : run (step Networked.main) ⟨[], .menu o.val⟩ (.button 13#32 :: es) = some c)
    (hone : buttons es = []) :
    txBytes es ++ c.todo.flatMap transmitted.owed =
      (episodeItems o).flatMap (Item.wire atFormat) := by
  have hrun := transmitted.run_emit h
  have hbuttons : inputs Networked.main (.button 13#32 :: es) = [13#32] :=
    congrArg (13#32 :: ·) hone
  have hbytes : (Event.button 13#32 :: es).flatMap transmitted.emit = txBytes es := by
    rw [emitted_transmitted]
    rfl
  have hsel : gesture ⟨o, false⟩ 13#32 = .select := (gesture_select_iff _ _).mpr ⟨rfl, rfl⟩
  have hout := outputs_poll networked_loop transmitted ⟨o, false⟩ [13#32]
  simp only [transmitted_asked, List.nil_append, script_wire, replies_cons, replies_nil, hsel,
    if_true, List.append_nil, press] at hout
  rw [hbytes, hbuttons, List.flatMap_nil, List.nil_append] at hrun
  exact hrun.trans hout

/-- What is shown is what is sent, except for the third option: once a SELECT read at the
menu has been answered, exactly one message has been published. -/
theorem shown_is_sent_iff {es₁ es₂ : List Event} {count : Int} {c : Config Stmt Poll}
    (h₁ : run (step Networked.main) Networked.boot es₁ = some ⟨[], .menu count⟩)
    (h₂ : run (step Networked.main) ⟨[], .menu count⟩ (.button 13#32 :: es₂) = some c)
    (hone : buttons es₂ = []) (d : Controller) :
    (c.todo = [] → published (scan atFormat (.line []) (txBytes es₁)).2 es₂ ≠ []) ∧
    (published (scan atFormat (.line []) (txBytes es₁)).2 es₂ ≠ [] →
      (published (scan atFormat (.line []) (txBytes es₁)).2 es₂ =
        [(text (execAll d (commands es₁))).map upper] ↔ count ≠ 2)) := by
  obtain ⟨hsel, hval⟩ := poll_menu (networked_ctrl h₁).symm
  have hshown := (run_typed h₁ rfl d).shows
  generalize presses first (buttons es₁) = m at hsel hval hshown
  obtain ⟨o, s⟩ := m
  simp only at hsel hval
  subst hsel hval
  have htext : text (execAll d (commands es₁)) = label ⟨o, false⟩ :=
    shows_text hshown (Nat.le_of_lt (label_length _)) (label_last _)
  have hall := congrArg (List.filterMap message) (congrArg Prod.fst
    (congrArg (scan atFormat (.line [])) (selection_wire h₂ hone)))
  rw [scan_items atFormat _ (episodeItems_ok o), scan_append, List.filterMap_append] at hall
  have hmessage : (episodeItems o).flatMap Item.frames = episodeFrames o := rfl
  rw [hmessage, episode_messages] at hall
  rw [poll_mode h₁ rfl, htext]
  constructor
  · intro hidle
    rw [hidle, List.flatMap_nil, scan_nil, List.filterMap_nil, List.append_nil] at hall
    simp [published, hall]
  · intro hsent
    obtain ⟨hnone, -⟩ | ⟨hone, -⟩ := List.append_eq_singleton_iff.mp hall
    · exact absurd hnone hsent
    · rw [published, hone, List.singleton_inj, upper_label_iff]

/-- A selection of the given option by a program that has just been started. -/
def selection (o : Fin 5) : List Event :=
  (networkedScript .select o.val).flatMap serve

theorem shown_is_sent_first :
    published (.line []) (selection 0) =
      [(text (execAll blankDisplay (commands (unblocked [])))).map upper] := by
  have hmode : (scan atFormat (.line []) (txBytes (unblocked []))).2 = .line [] := by
    decide
  have hsent := (@shown_is_sent_iff (unblocked []) (selection 0) 0 ⟨[], .selection 0⟩
    (networked_run []) (by decide +kernel) (by decide +kernel) blankDisplay)
  rw [hmode] at hsent
  exact (hsent.2 (hsent.1 rfl)).mpr (by decide)

/-- Two moves down the menu show the third option; selecting it publishes another word. -/
theorem remocao_sent_as_confiara :
    run (step Networked.main) Networked.boot (unblocked [11#32, 11#32]) = some ⟨[], .menu 2⟩ ∧
    run (step Networked.main) ⟨[], .menu 2⟩ (.button 13#32 :: selection 2) =
      some ⟨[], .selection 2⟩ ∧
    text (execAll blankDisplay (commands (unblocked [11#32, 11#32]))) = ascii "remocao" ∧
    published (scan atFormat (.line []) (txBytes (unblocked [11#32, 11#32]))).2 (selection 2) =
      [ascii "CONFIARA"] ∧
    published (scan atFormat (.line []) (txBytes (unblocked [11#32, 11#32]))).2 (selection 2) ≠
      [(text (execAll blankDisplay (commands (unblocked [11#32, 11#32])))).map upper] := by
  decide +kernel

end Display
