import Mathlib.Algebra.Order.Ring.Int
import NiosMenu.Menu

/-!
# The front panel

The four push buttons and the four LEDs behind their ports, `nios_pushButton` and
`nios_leds`. A button pressed pulls its pin low, and a LED is lit while its pin is low. The
menu counts the presses of two buttons modulo five, where they are read outside a selection, and
the LEDs keep the option of the last poll inside one.
-/
namespace Panel

open Firmware Reactive Menu Devices

/-! ## The ports -/

structure Leds where
  dataOut : BitVec 4
  deriving DecidableEq, Repr

def Leds.reset : Leds := ⟨0⟩

def Leds.step (s : Leds) (address : BitVec 2) (chipselect writeN : Bool) (writedata : Word) :
    Leds :=
  if chipselect && !writeN && address == 0 then ⟨writedata.extractLsb' 0 4⟩ else s

/-- IOWR_ALTERA_AVALON_PIO_DATA(LEDS_BASE, data) -/
def Leds.iowr (s : Leds) (data : Word) : Leds := s.step 0 true false data

structure PushButton where
  readdata : Word
  deriving DecidableEq, Repr

/-- Every clock the register takes the pins, if the address is that of the data. -/
def PushButton.step (address : BitVec 2) (inPort : BitVec 4) : PushButton :=
  ⟨(if address == 0 then inPort else 0).setWidth 32⟩

/-- IORD(PUSHBUTTON_BASE, 0) with the levels of the pins. -/
def iord (inPort : BitVec 4) : Word := (PushButton.step 0 inPort).readdata

/-- The LEDs behind the accesses of a run. -/
def ledsAfter (es : List Event) : Leds :=
  (accesses es).foldl (fun s a => match a with
    | .leds data => s.iowr data
    | _ => s) Leds.reset

/-! ## The values for the LEDs -/

/-- What `onLed` writes. -/
def ledValue : Fin 5 → Word
  | 0 => 7
  | 1 => 11
  | 2 => 13
  | 3 => 14
  | 4 => ~~~15

/-- The levels of the four pins for an option. -/
def lamps (o : Fin 5) : BitVec 4 := (ledValue o).extractLsb' 0 4

/-! ## The LEDs along a run -/

def ledWrites : Action → List Word
  | .leds data => [data]
  | _ => []

def lit : Emission Networked.main Word :=
  emission Networked.loop ledWrites (fun _ => []) [] fun _ => rfl

theorem ledsAfter_writes (es : List Event) :
    ledsAfter es = ((accesses es).flatMap ledWrites).foldl Leds.iowr Leds.reset := by
  rw [ledsAfter, List.foldl_flatMap]
  congr 1
  funext s a
  cases a <;> rfl

/-- The last value written stays. -/
theorem foldl_iowr (ws : List Word) :
    ws.foldl Leds.iowr Leds.reset = ⟨(ws.getLast?.map fun d => d.extractLsb' 0 4).getD 0⟩ := by
  obtain rfl | ⟨front, d, rfl⟩ := List.eq_nil_or_concat' ws
  · rfl
  · rw [List.foldl_append]
    simp [Leds.iowr, Leds.step]

/-- Statements that leave the LEDs alone. -/
def dark : Stmt → Bool
  | .act (.leds _) => false
  | _ => true

theorem dark_owed {l : List Stmt} (h : ∀ s ∈ l, dark s = true) : l.flatMap lit.owed = [] := by
  apply List.flatMap_eq_nil_iff.mpr
  intro s hs
  have hdark := h s hs
  cases s with
  | act a => cases a <;> first | rfl | cases hdark
  | _ => rfl

theorem dark_link {l : List Stmt} (h : ∀ s ∈ l, onLink s = true) : ∀ s ∈ l, dark s = true := by
  intro s hs
  have hlink := h s hs
  cases s with
  | act a => cases a <;> first | rfl | cases hlink
  | _ => rfl

theorem dark_imprime (v : List Byte) (n : Int) : ∀ s ∈ Networked.imprime v n, dark s = true := by
  simp only [Networked.imprime, List.forall_mem_append]
  exact ⟨⟨by simp [dark], forLoop_all fun i => by simp [dark]⟩, by simp [dark]⟩

theorem dark_onMessage (count : Int) : ∀ s ∈ Networked.onMessage count, dark s = true := by
  unfold Networked.onMessage
  split <;> first | exact dark_imprime _ _ | simp

theorem dark_onMessageSelected (count : Int) :
    ∀ s ∈ Networked.onMessageSelected count, dark s = true := by
  obtain hnone | ⟨answer, publish, hsome⟩ := onMessageSelected_cases count
  · simp [hnone]
  · rw [hsome, List.forall_mem_append]
    exact ⟨dark_imprime _ _, dark_link (publishMQTT_onLink _ _)⟩

theorem dark_start : ∀ s ∈ Networked.start, dark s = true := by
  have hcommand : ∀ v n, ∀ s ∈ Networked.writenUart v n, dark s = true :=
    fun v n => dark_link (writenUart_onLink v n)
  have hread : ∀ s ∈ Networked.readUart, dark s = true := by simp [Networked.readUart, dark]
  have hpause : ∀ s ∈ [usleep 1000000], dark s = true := by simp [dark]
  have hsetup : ∀ s ∈ Networked.initializeLcd, dark s = true := by
    simp [Networked.initializeLcd, dark]
  simp only [Networked.start, List.forall_mem_append, and_assoc]
  exact ⟨hcommand _ _, hread, hpause, hcommand _ _, hread, hpause, hcommand _ _, hread, hpause,
    hsetup, dark_onMessage 0⟩

/-- Only the polls of a selection write to the LEDs. -/
theorem dark_script {g : Gesture} (hstay : g ≠ .stay) (hleave : g ≠ .leave) (count : Int) :
    ∀ s ∈ networkedScript g count, dark s = true := by
  have hsleep : ∀ us, ∀ s ∈ [usleep us], dark s = true := by simp [dark]
  cases g with
  | turn => exact List.forall_mem_append.mpr ⟨hsleep _, dark_onMessage count⟩
  | wait => exact hsleep _
  | select =>
    have hread : ∀ s ∈ Networked.readUart, dark s = true := by simp [Networked.readUart, dark]
    simp only [networkedScript, List.forall_mem_append, and_assoc]
    exact ⟨hsleep _, dark_link (writenUart_onLink _ _), hread, hsleep _,
      dark_link connectMQTT_onLink, dark_onMessageSelected count, dark_link (altPrintf_onLink _)⟩
  | stay => exact absurd rfl hstay
  | leave => exact absurd rfl hleave

theorem onLed_owed (o : Fin 5) : (Networked.onLed o.val).flatMap lit.owed = [ledValue o] := by
  fin_cases o <;> rfl

theorem script_owed (g : Gesture) (o : Fin 5) : (networkedScript g o.val).flatMap lit.owed =
    if g = .stay ∨ g = .leave then [ledValue o] else [] := by
  by_cases hg : g = .stay ∨ g = .leave
  · rw [if_pos hg]
    obtain rfl | rfl := hg
    · exact onLed_owed o
    · rw [networkedScript, List.flatMap_append, onLed_owed, dark_owed (dark_onMessage _)]
      rfl
  · rw [if_neg hg]
    obtain ⟨hstay, hleave⟩ := not_or.mp hg
    exact dark_owed (dark_script hstay hleave o.val)

/-- The options of the selection polls, one for each of them. -/
def shown (bs : List Word) : List (Fin 5) :=
  replies (fun g o _ => if g = .stay ∨ g = .leave then [o] else []) first bs

theorem writes_shown {es : List Event} {c : Config Stmt Poll}
    (h : run (step Networked.main) Networked.boot es = some c) (hpoll : c.todo = []) :
    (accesses es).flatMap ledWrites = (shown (buttons es)).map ledValue := by
  have hall := lit.run_emit_idle h hpoll
  have hstart : Networked.boot.todo.flatMap lit.owed = [] := dark_owed dark_start
  have hout := outputs_poll networked_loop lit first (buttons es)
  have hasked : ∀ b, lit.asked b = [] := fun _ => rfl
  simp only [hasked, List.nil_append, script_owed] at hout
  have hemit : es.flatMap lit.emit = (accesses es).flatMap ledWrites :=
    emitted_accesses ledWrites es
  rw [hstart, List.nil_append, hemit] at hall
  rw [hall]
  refine hout.trans ?_
  rw [shown, replies_map]
  congr 1
  funext g o b
  split <;> rfl

/-! ## The count -/

/-- One up and one down of the two buttons at the polls of the menu; inside a selection they
move nothing. -/
def turns (bs : List Word) : List Int :=
  replies (fun g _ b => if g = .turn then [if b = 11#32 then 1 else -1] else []) first bs

theorem press_val (m : State) (b : Word) :
    ((press m b).option.val : Int) =
      (m.option.val + (if gesture m b = .turn then (if b = 11#32 then 1 else -1) else 0)) % 5 := by
  have hup : ∀ o : Fin 5, ((o + 1 : Fin 5).val : Int) = ((o.val : Int) + 1) % 5 := by decide
  have hdown : ∀ o : Fin 5, ((o - 1 : Fin 5).val : Int) = ((o.val : Int) + -1) % 5 := by decide
  have hsame : ∀ o : Fin 5, (o.val : Int) = ((o.val : Int) + 0) % 5 := by decide
  unfold press
  cases hg : gesture m b with
  | turn => by_cases hb : b = 11#32 <;> simp [hb, hup, hdown]
  | _ => simpa using hsame m.option

theorem presses_val (m : State) (bs : List Word) :
    ((presses m bs).option.val : Int) = (m.option.val + (replies (fun g _ b =>
      if g = .turn then [if b = 11#32 then (1 : Int) else -1] else []) m bs).sum) % 5 := by
  induction bs generalizing m with
  | nil =>
    have hsame : ∀ o : Fin 5, (o.val : Int) = ((o.val : Int) + 0) % 5 := by decide
    exact hsame m.option
  | cons b bs ih =>
    rw [presses_cons, ih, press_val, replies_cons, List.sum_append, Int.emod_add_emod,
      Int.add_assoc]
    congr 2
    split <;> simp

theorem option_turns (bs : List Word) :
    ((presses first bs).option.val : Int) = (turns bs).sum % 5 := by
  have hval := presses_val first bs
  have hzero : ((first.option.val : Nat) : Int) = 0 := rfl
  rwa [hzero, Int.zero_add] at hval

/-- The count at a poll of the menu depends on the button samples alone: the option that is third,
whose packet was encoded for another label, is the one at a balance of two. -/
theorem menu_count {es : List Event} {count : Int}
    (h : run (step Networked.main) Networked.boot es = some ⟨[], .menu count⟩) :
    count = (turns (buttons es)).sum % 5 :=
  (poll_menu (networked_ctrl h).symm).2.trans (option_turns (buttons es))

/-- At every poll of every run the count is the balance of the turns modulo five, and the port of
the LEDs has the levels of the option of the last poll inside a selection, or those of the reset
if there was none. -/
theorem panel_shows {es : List Event} {c : Config Stmt Poll}
    (h : run (step Networked.main) Networked.boot es = some c) (hpoll : c.todo = []) :
    (∃ m : State, c.ctrl = poll m ∧ (m.option.val : Int) = (turns (buttons es)).sum % 5) ∧
    ledsAfter es = ⟨((shown (buttons es)).getLast?.map lamps).getD 0⟩ := by
  refine ⟨⟨presses first (buttons es), networked_ctrl h, option_turns (buttons es)⟩, ?_⟩
  rw [ledsAfter_writes, writes_shown h hpoll, foldl_iowr, List.getLast?_map, Option.map_map]
  rfl

/-- Two downs from the first option, a selection with one poll inside it, and an up. -/
theorem panel_shows_four : ∃ es c,
    run (step Networked.main) Networked.boot es = some c ∧ c.ctrl = .menu 4 ∧
      ledsAfter es = ⟨0b1110#4⟩ := by
  have hrun := networked_run [7#32, 7#32, 13#32, 14#32, 11#32]
  obtain ⟨-, hleds⟩ := panel_shows hrun rfl
  refine ⟨_, _, hrun, rfl, ?_⟩
  rw [hleds, answered_buttons]
  rfl

/-! ## The pins -/

/-- Exactly one button is pressed. -/
def single (pins : BitVec 4) : Bool := (List.range 4).countP (fun i => !pins.getLsbD i) == 1

theorem iord_chord : ∀ pins : BitVec 4, single pins = false →
    iord pins ≠ 11#32 ∧ iord pins ≠ 7#32 ∧ iord pins ≠ 13#32 ∧ iord pins ≠ 14#32 := by
  decide

theorem press_chord (m : State) {pins : BitVec 4} (h : single pins = false) :
    press m (iord pins) = m := by
  obtain ⟨hup, hdown, hselect, hleave⟩ := iord_chord pins h
  obtain ⟨o, s⟩ := m
  cases s <;> simp [press, gesture, hup, hdown, hselect, hleave]

theorem presses_chords (m : State) (pins : List (BitVec 4)) :
    presses m (pins.map iord) = presses m ((pins.filter single).map iord) := by
  induction pins generalizing m with
  | nil => rfl
  | cons p pins ih =>
    rw [List.map_cons, presses_cons, ih]
    cases hp : single p with
    | true => rw [List.filter_cons_of_pos hp, List.map_cons, presses_cons]
    | false => rw [press_chord m hp, List.filter_cons_of_neg (by simp [hp])]

/-- Where the program is depends only on the reads with exactly one button pressed: no button
and several buttons at once are as if they had not been read. -/
theorem chords_ignored {es : List Event} {c : Config Stmt Poll} {pins : List (BitVec 4)}
    (h : run (step Networked.main) Networked.boot es = some c)
    (hpins : buttons es = pins.map iord) :
    c.ctrl = poll (presses first ((pins.filter single).map iord)) := by
  rw [networked_ctrl h, hpins, presses_chords]

/-- Two buttons at once, and none, between two ups. -/
def ups : List (BitVec 4) := [0b1011#4, 0b0011#4, 0b1111#4, 0b1011#4]

theorem chords_ignored_ups :
    run (step Networked.main) Networked.boot (unblocked (ups.map iord)) =
      some ⟨[], poll (presses first ((ups.filter single).map iord))⟩ ∧
    poll (presses first ((ups.filter single).map iord)) = .menu 2 := by
  have hrun := networked_run (ups.map iord)
  have hbuttons : buttons (unblocked (ups.map iord)) = ups.map iord := answered_buttons _ _
  have hctrl : poll (presses first (ups.map iord)) = _ := chords_ignored hrun hbuttons
  exact ⟨by rw [hrun, hctrl], rfl⟩

end Panel
