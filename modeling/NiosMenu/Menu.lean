import Mathlib.Data.Fintype.Basic
import Mathlib.Tactic.FinCases
import NiosMenu.Devices
import NiosMenu.Standalone

/-!
# The menu behind both programs

What the push buttons are for: a cyclic choice among five options and a selection
that is left with value 14. Both `main` loops are this menu with their own scripts.
-/
namespace Menu

open Firmware Reactive Devices

structure State where
  option : Fin 5
  selecting : Bool
  deriving DecidableEq, Repr

/-- What a button value means at a control point. -/
inductive Gesture where
  | turn | wait | select | stay | leave
  deriving DecidableEq, Repr

def first : State := ⟨0, false⟩

def gesture (m : State) (b : Word) : Gesture :=
  if m.selecting then (if b = 14#32 then .leave else .stay)
  else if b = 11#32 ∨ b = 7#32 then .turn
  else if b = 13#32 then .select
  else .wait

def press (m : State) (b : Word) : State :=
  match gesture m b with
  | .turn => ⟨if b = 11#32 then m.option + 1 else m.option - 1, false⟩
  | .wait => m
  | .select => ⟨m.option, true⟩
  | .stay => m
  | .leave => ⟨m.option, false⟩

def presses (m : State) (bs : List Word) : State := bs.foldl press m

@[simp] theorem presses_nil (m : State) : presses m [] = m := rfl
@[simp] theorem presses_cons (m : State) (b : Word) (bs : List Word) :
    presses m (b :: bs) = presses (press m b) bs := rfl

/-- The control point of `main` with its variable `count`. -/
def poll (m : State) : Poll :=
  if m.selecting then .selection m.option.val else .menu m.option.val

theorem poll_menu {m : State} {count : Int} (h : poll m = .menu count) :
    m.selecting = false ∧ count = m.option.val := by
  unfold poll at h
  split at h
  · cases h
  · exact ⟨Bool.eq_false_iff.mpr ‹_›, (Poll.menu.inj h).symm⟩

theorem poll_selection {m : State} {count : Int} (h : poll m = .selection count) :
    m.selecting = true ∧ count = m.option.val := by
  unfold poll at h
  split at h
  · exact ⟨‹_›, (Poll.selection.inj h).symm⟩
  · cases h

theorem gesture_select_iff (m : State) (b : Word) :
    gesture m b = .select ↔ m.selecting = false ∧ b = 13#32 := by
  obtain ⟨o, s⟩ := m
  cases s
  · by_cases h : b = 13#32
    · subst h; simp [gesture]
    · simp only [gesture, h, Bool.false_eq_true, ↓reduceIte]
      split <;> simp
  · simp only [gesture, ↓reduceIte]
    split <;> simp

/-- The answers of a program to a list of button values, one script for each value. -/
def replies (r : Gesture → Fin 5 → Word → List ω) : State → List Word → List ω
  | _, [] => []
  | m, b :: bs => r (gesture m b) (press m b).option b ++ replies r (press m b) bs

@[simp] theorem replies_nil (r : Gesture → Fin 5 → Word → List ω) (m : State) :
    replies r m [] = [] := rfl
@[simp] theorem replies_cons (r : Gesture → Fin 5 → Word → List ω) (m : State) (b : Word)
    (bs : List Word) :
    replies r m (b :: bs) = r (gesture m b) (press m b).option b ++ replies r (press m b) bs := rfl

theorem replies_append (r : Gesture → Fin 5 → Word → List ω) (m : State) (bs cs : List Word) :
    replies r m (bs ++ cs) = replies r m bs ++ replies r (presses m bs) cs := by
  induction bs generalizing m with
  | nil => rfl
  | cons b bs ih =>
    rw [List.cons_append, replies_cons, replies_cons, List.append_assoc, ih, presses_cons]

theorem replies_map (f : ω → ζ) (r : Gesture → Fin 5 → Word → List ω) (m : State)
    (bs : List Word) :
    (replies r m bs).map f = replies (fun g o b => (r g o b).map f) m bs := by
  induction bs generalizing m with
  | nil => rfl
  | cons b bs ih => rw [replies_cons, replies_cons, List.map_append, ih]

/-- The options of the selection episodes: one for each SELECT read at the menu. -/
def episodes (m : State) (bs : List Word) : List (Fin 5) :=
  replies (fun g o _ => if g = .select then [o] else []) m bs

theorem replies_select (block : Fin 5 → List ω) (m : State) (bs : List Word) :
    replies (fun g o _ => if g = .select then block o else []) m bs =
      (episodes m bs).flatMap block := by
  induction bs generalizing m with
  | nil => rfl
  | cons b bs ih =>
    simp only [replies_cons, episodes, List.flatMap_append, ih (press m b)]
    congr 1
    split <;> simp

theorem episodes_append (m : State) (bs cs : List Word) :
    episodes m (bs ++ cs) = episodes m bs ++ episodes (presses m bs) cs := by
  induction bs generalizing m with
  | nil => rfl
  | cons b bs ih =>
    simp only [List.cons_append, episodes, replies_cons, List.append_assoc, presses_cons]
    congr 1
    exact ih _

/-- Wrap-around at both ends: the C arithmetic on `count` is arithmetic modulo 5. -/
theorem count_up (o : Fin 5) :
    (if (o.val : Int) + 1 > 4 then 0 else (o.val : Int) + 1) = ((o + 1 : Fin 5).val : Int) := by
  fin_cases o <;> rfl

theorem count_down (o : Fin 5) :
    (if (o.val : Int) - 1 = -1 then 4 else (o.val : Int) - 1) = ((o - 1 : Fin 5).val : Int) := by
  fin_cases o <;> rfl

/-- The main loop that both programs share, with the statements of its branches open. -/
def countLoop (script : Gesture → Int → List Stmt) : Poll → Word → List Stmt × Poll
  | .menu count, b =>
    if b = 11#32 then
      let count := if count + 1 > 4 then 0 else count + 1
      (script .turn count, .menu count)
    else if b = 7#32 then
      let count := if count - 1 = -1 then 4 else count - 1
      (script .turn count, .menu count)
    else if b = 13#32 then (script .select count, .selection count)
    else (script .wait count, .menu count)
  | .selection count, b =>
    if b ≠ 14#32 then (script .stay count, .selection count)
    else (script .leave count, .menu count)

/-- The C control flow with its `count` is the menu with its option modulo 5. -/
theorem countLoop_poll (script : Gesture → Int → List Stmt) (m : State) (b : Word) :
    countLoop script (poll m) b =
      (script (gesture m b) (press m b).option.val, poll (press m b)) := by
  obtain ⟨o, s⟩ := m
  cases s
  · by_cases hu : b = 11#32
    · subst hu
      simp only [poll, gesture, press, countLoop, count_up, Bool.false_eq_true, ↓reduceIte,
        true_or]
    · by_cases hd : b = 7#32
      · subst hd
        simp only [poll, gesture, press, countLoop, count_down, Bool.false_eq_true, ↓reduceIte,
          hu, or_true]
      · by_cases hs : b = 13#32 <;> simp [poll, gesture, press, countLoop, hu, hd, hs]
  · by_cases hl : b = 14#32 <;> simp [poll, gesture, press, countLoop, hl]

theorem countLoop_script (script : Gesture → Int → List Stmt) (k : Poll) (b : Word) :
    ∃ g count, (countLoop script k b).1 = script g count := by
  cases k with
  | menu count =>
    by_cases hu : b = 11#32
    · exact ⟨.turn, if count + 1 > 4 then 0 else count + 1, by simp [countLoop, hu]⟩
    · by_cases hd : b = 7#32
      · exact ⟨.turn, if count - 1 = -1 then 4 else count - 1, by simp [countLoop, hd]⟩
      · by_cases hs : b = 13#32
        · exact ⟨.select, count, by simp [countLoop, hs]⟩
        · exact ⟨.wait, count, by simp [countLoop, hu, hd, hs]⟩
  | selection count =>
    by_cases hl : b = 14#32
    · exact ⟨.leave, count, by simp [countLoop, hl]⟩
    · exact ⟨.stay, count, by simp [countLoop, hl]⟩

section Loop

variable {script : Gesture → Int → List Stmt} {loop : Poll → Word → List Stmt × Poll}

theorem after_poll (hloop : loop = countLoop script) (m : State) (bs : List Word) :
    after (firmware loop) (poll m) bs = poll (presses m bs) := by
  subst hloop
  induction bs generalizing m with
  | nil => rfl
  | cons b bs ih =>
    rw [after_cons, firmware_react, countLoop_poll, presses_cons]
    exact ih _

/-- Everything the program emits after a button read, by gestures alone. -/
theorem outputs_poll (hloop : loop = countLoop script) (O : Emission (firmware loop) ω)
    (m : State) (bs : List Word) :
    O.outputs (poll m) bs =
      replies (fun g o b => O.asked b ++ (script g o.val).flatMap O.owed) m bs := by
  subst hloop
  induction bs generalizing m with
  | nil => rfl
  | cons b bs ih =>
    rw [Emission.outputs_cons, firmware_react, countLoop_poll, replies_cons]
    exact congrArg _ (ih _)

/-- A run of a program in which no wait blocks. -/
def answered (loop : Poll → Word → List Stmt × Poll) (start : List Stmt) (bs : List Word) :
    List Event :=
  start.flatMap serve ++ served (firmware loop) serve .button (poll first) bs

theorem serve_inputs (s : Stmt) : inputs (firmware loop) (serve s) = [] := by
  cases s <;> rfl

theorem answered_buttons (start : List Stmt) (bs : List Word) :
    buttons (answered loop start bs) = bs := by
  have hstart := inputs_flatMap (firmware loop) serve_inputs start
  have hserved : inputs (firmware loop) (served (firmware loop) serve .button (poll first) bs) =
      bs := inputs_served (fun _ => rfl) serve_inputs (poll first) bs
  rw [← inputs_firmware loop, answered, inputs_append, hstart, hserved, List.nil_append]

/-- Every list of button values is read by some run, up to the poll after it. -/
theorem answered_run {start : List Stmt} (hloop : loop = countLoop script)
    (hstart : ∀ s ∈ start, s.written) (hscript : ∀ g count, ∀ s ∈ script g count, s.written)
    (bs : List Word) :
    run (step (firmware loop)) ⟨start, poll first⟩ (answered loop start bs) =
      some ⟨[], poll (presses first bs)⟩ := by
  have hbody : ∀ k b, ∀ s ∈ ((firmware loop).react k b).1, Serves (firmware loop) serve s := by
    intro k b s hs
    obtain ⟨g, count, hg⟩ := countLoop_script script k b
    rw [firmware_react, hloop, hg] at hs
    exact serve_written loop (hscript g count s hs)
  have hfirst := run_serve (fun s hs => serve_written loop (hstart s hs)) [] (poll first)
  have hrest : run (step (firmware loop)) ⟨[], poll first⟩
      (served (firmware loop) serve .button (poll first) bs) =
        some ⟨[], after (firmware loop) (poll first) bs⟩ :=
    run_served (fun _ => rfl) hbody (poll first) bs
  rw [List.append_nil] at hfirst
  rw [after_poll hloop] at hrest
  exact run_join hfirst hrest

end Loop

def networkedScript : Gesture → Int → List Stmt
  | .turn, count => [usleep 100000] ++ Networked.onMessage count
  | .wait, _ => [usleep 100000]
  | .select, count => [usleep 100000] ++
      Networked.writenUart Networked.comandoAT3 (strlen Networked.comandoAT3) ++
      Networked.readUart ++ [usleep 1000000] ++ Networked.connectMQTT ++
      Networked.onMessageSelected count ++ altPrintf "Message sent"
  | .stay, count => Networked.onLed count
  | .leave, count => Networked.onLed count ++ Networked.onMessage count

def standaloneScript : Gesture → Int → List Stmt
  | .turn, count => [usleep 100000] ++ Standalone.onMessage count
  | .wait, _ => [usleep 100000]
  | .select, count => [usleep 100000] ++ Standalone.onMessageSelected count
  | .stay, count => Standalone.onLed count
  | .leave, count => Standalone.onLed count ++ Standalone.onMessage count

theorem networked_loop : Networked.loop = countLoop networkedScript := by
  funext p b
  cases p <;> rfl

theorem networked_react (m : State) (b : Word) :
    Networked.main.react (poll m) b =
      (networkedScript (gesture m b) (press m b).option.val, poll (press m b)) := by
  rw [← countLoop_poll, ← networked_loop]
  rfl

theorem standalone_loop : Standalone.loop = countLoop standaloneScript := by
  funext p b
  cases p <;> rfl

/-- Every run of the networked program stands, between its scripts, at the menu. -/
theorem networked_ctrl {es : List Event} {c : Config Stmt Poll}
    (h : run (step Networked.main) Networked.boot es = some c) :
    c.ctrl = poll (presses first (buttons es)) :=
  (run_ctrl h).trans (after_poll networked_loop first (buttons es))

theorem start_devices :
    ∀ s ∈ Networked.start, onBoard s = true ∨ onLink s = true ∨ s = .pollRrdy := by
  have hcommand : ∀ v n, ∀ s ∈ Networked.writenUart v n,
      onBoard s = true ∨ onLink s = true ∨ s = .pollRrdy :=
    fun v n s hs => .inr (.inl (writenUart_onLink v n s hs))
  have hread : ∀ s ∈ Networked.readUart, onBoard s = true ∨ onLink s = true ∨ s = .pollRrdy := by
    simp [Networked.readUart]
  have hpause : ∀ s ∈ [usleep 1000000], onBoard s = true ∨ onLink s = true ∨ s = .pollRrdy := by
    simp
  simp only [Networked.start, List.forall_mem_append, and_assoc]
  exact ⟨hcommand _ _, hread, hpause, hcommand _ _, hread, hpause, hcommand _ _, hread, hpause,
    fun s hs => .inl (initializeLcd_onBoard s hs), fun s hs => .inl (onMessage_onBoard 0 s hs)⟩

theorem start_written : ∀ s ∈ Networked.start, s.written = true :=
  fun s hs => written_of_body (start_devices s hs)

/-- Only a selection leaves the board. -/
theorem script_onBoard {g : Gesture} (hg : g ≠ .select) (count : Int) :
    ∀ s ∈ networkedScript g count, onBoard s = true := by
  cases g with
  | turn => exact List.forall_mem_append.mpr ⟨by simp, onMessage_onBoard count⟩
  | wait => simp [networkedScript]
  | select => exact absurd rfl hg
  | stay => exact onLed_onBoard count
  | leave => exact List.forall_mem_append.mpr ⟨onLed_onBoard count, onMessage_onBoard count⟩

theorem script_devices (g : Gesture) (count : Int) :
    ∀ s ∈ networkedScript g count, onBoard s = true ∨ onLink s = true ∨ s = .pollRrdy := by
  by_cases hg : g = .select
  · have hsleep : ∀ us, ∀ s ∈ [usleep us], onBoard s = true ∨ onLink s = true ∨ s = .pollRrdy := by
      simp
    have hread : ∀ s ∈ Networked.readUart, onBoard s = true ∨ onLink s = true ∨ s = .pollRrdy := by
      simp [Networked.readUart]
    have hlink : ∀ {l : List Stmt}, (∀ s ∈ l, onLink s = true) →
        ∀ s ∈ l, onBoard s = true ∨ onLink s = true ∨ s = .pollRrdy :=
      fun h s hs => .inr (.inl (h s hs))
    simp only [hg, networkedScript, List.forall_mem_append, and_assoc]
    exact ⟨hsleep _, hlink (writenUart_onLink _ _), hread, hsleep _, hlink connectMQTT_onLink,
      fun s hs => (onMessageSelected_devices count s hs).imp_right .inl,
      hlink (altPrintf_onLink _)⟩
  · exact fun s hs => .inl (script_onBoard hg count s hs)

theorem script_written (g : Gesture) (count : Int) :
    ∀ s ∈ networkedScript g count, s.written = true :=
  fun s hs => written_of_body (script_devices g count s hs)

theorem loop_devices (k : Poll) (b : Word) :
    ∀ s ∈ (Networked.loop k b).1, onBoard s = true ∨ onLink s = true ∨ s = .pollRrdy := by
  obtain ⟨g, count, hscript⟩ := countLoop_script networkedScript k b
  rw [networked_loop, hscript]
  exact script_devices g count

theorem loop_written (k : Poll) (b : Word) : ∀ s ∈ (Networked.loop k b).1, s.written := by
  obtain ⟨g, count, hscript⟩ := countLoop_script networkedScript k b
  rw [networked_loop, hscript]
  exact script_written g count

abbrev unblocked (bs : List Word) : List Event := answered Networked.loop Networked.start bs

/-- The networked program reads any list of button values when nothing blocks it. -/
theorem networked_run (bs : List Word) :
    run (step Networked.main) Networked.boot (unblocked bs) =
      some ⟨[], poll (presses first bs)⟩ :=
  answered_run networked_loop start_written script_written bs

theorem standalone_onMessageSelected_onBoard (count : Int) :
    ∀ s ∈ Standalone.onMessageSelected count, onBoard s = true := by
  unfold Standalone.onMessageSelected
  split <;> first | exact imprime_onBoard _ _ | simp

/-- Outside of a selection the two programs do the same. -/
theorem standalone_script {g : Gesture} (hg : g ≠ .select) (count : Int) :
    standaloneScript g count = networkedScript g count := by
  cases g with
  | select => exact absurd rfl hg
  | _ => rfl

theorem standalone_written (g : Gesture) (count : Int) :
    ∀ s ∈ standaloneScript g count, s.written = true := by
  by_cases hg : g = .select
  · have hselected := written_of_onBoard (standalone_onMessageSelected_onBoard count)
    rw [hg]
    exact List.forall_mem_append.mpr ⟨by simp, hselected⟩
  · rw [standalone_script hg]
    exact script_written g count

theorem standalone_start_written : ∀ s ∈ Standalone.start, s.written = true :=
  List.forall_mem_append.mpr ⟨written_of_onBoard initializeLcd_onBoard,
    written_of_onBoard (onMessage_onBoard 0)⟩

/-- The stand-alone program has no wait at all and reads any list of button values. -/
theorem standalone_run (bs : List Word) :
    run (step Standalone.main) Standalone.boot (answered Standalone.loop Standalone.start bs) =
      some ⟨[], poll (presses first bs)⟩ :=
  answered_run standalone_loop standalone_start_written standalone_written bs

end Menu
