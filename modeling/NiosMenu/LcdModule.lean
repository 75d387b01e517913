import NiosMenu.Firmware

/-!
# The lcd custom-instruction module

The clocked registers of the `lcd` Verilog module and its delivery law: every strobe
is captured once and leaves at the next strobe, so exactly one command lags behind.
-/
namespace LcdModule

open Firmware

/-- The inputs at one rising edge of clk. -/
structure Clock where
  clkEn : Bool
  dataa : Word
  datab : Word
  deriving DecidableEq, Repr

structure Regs where
  en : Bool
  state : Bool
  rs : Bool
  display : Byte
  deriving DecidableEq, Repr

/-- The registers at power-up, all of them zero; the source initializes only `state`. -/
def powerUp : Regs := ⟨false, false, false, 0⟩

/-- What the display reads at a falling edge of en. -/
structure Command where
  rs : Bool
  display : Byte
  deriving DecidableEq, Repr

/-- The `always @(posedge clk)` block; rw is tied to zero. -/
def posedge (r : Regs) (i : Clock) : Regs :=
  if i.clkEn then { r with en := false, state := true }
  else if r.state then
    { en := true, rs := i.dataa.getLsbD 0, display := low i.datab, state := false }
  else r

def run (r : Regs) (is : List Clock) : Regs := is.foldl posedge r

@[simp] theorem run_nil (r : Regs) : run r [] = r := rfl
@[simp] theorem run_cons (r : Regs) (i : Clock) (is : List Clock) :
    run r (i :: is) = run (posedge r i) is := rfl
theorem run_append (r : Regs) (is js : List Clock) :
    run r (is ++ js) = run (run r is) js := List.foldl_append

def output (r : Regs) : Command := ⟨r.rs, r.display⟩

/-- The command read at this clock, when en falls here. -/
def falling (r : Regs) (i : Clock) : Option Command :=
  if r.en && !(posedge r i).en then some (output (posedge r i)) else none

/-- The commands present at the successive falling edges of en. -/
def falls : Regs → List Clock → List Command
  | _, [] => []
  | r, i :: is => (falling r i).toList ++ falls (posedge r i) is

theorem falls_append (r : Regs) (is js : List Clock) :
    falls r (is ++ js) = falls r is ++ falls (run r is) js := by
  induction is generalizing r with
  | nil => rfl
  | cons i is ih => rw [List.cons_append, falls, ih, falls, run_cons, List.append_assoc]

/-- The operands that matter to the display. -/
def operands (dataa datab : Word) : Command := ⟨dataa.getLsbD 0, low datab⟩

/-- The operands of the capture clocks: the first clocks with clk_en low after a strobe.
The first argument is clk_en at the clock before. -/
def captures : Bool → List Clock → List Command
  | _, [] => []
  | strobe, i :: is =>
    if strobe && !i.clkEn then operands i.dataa i.datab :: captures i.clkEn is
    else captures i.clkEn is

/-- The capture that en still holds back. -/
def pending (r : Regs) : List Command := if r.en then [output r] else []

/-- A captured command and an open strobe exclude each other. -/
def Legal (r : Regs) : Prop := r.en = true → r.state = false

theorem posedge_strobe {r : Regs} {i : Clock} (h : i.clkEn = true) :
    posedge r i = { r with en := false, state := true } := by simp [posedge, h]

theorem posedge_capture {r : Regs} {i : Clock} (h : i.clkEn = false) (hs : r.state = true) :
    posedge r i = ⟨true, false, i.dataa.getLsbD 0, low i.datab⟩ := by simp [posedge, h, hs]

theorem posedge_idle {r : Regs} {i : Clock} (h : i.clkEn = false) (hs : r.state = false) :
    posedge r i = r := by simp [posedge, h, hs]

/-- The three things a clock can do. -/
theorem posedge_cases (r : Regs) (i : Clock) :
    (i.clkEn = true ∧ posedge r i = { r with en := false, state := true }) ∨
    (i.clkEn = false ∧ r.state = true ∧
      posedge r i = ⟨true, false, i.dataa.getLsbD 0, low i.datab⟩) ∨
    (i.clkEn = false ∧ r.state = false ∧ posedge r i = r) := by
  cases hi : i.clkEn with
  | true => exact .inl ⟨rfl, posedge_strobe hi⟩
  | false =>
    cases hs : r.state with
    | true => exact .inr (.inl ⟨rfl, rfl, posedge_capture hi hs⟩)
    | false => exact .inr (.inr ⟨rfl, rfl, posedge_idle hi hs⟩)

/-- The state register remembers clk_en of the clock before. -/
theorem posedge_state (r : Regs) (i : Clock) : (posedge r i).state = i.clkEn := by
  obtain ⟨hi, h⟩ | ⟨hi, -, h⟩ | ⟨hi, hs, h⟩ := posedge_cases r i
  · rw [h, hi]
  · rw [h, hi]
  · rw [h, hi, hs]

theorem posedge_legal {r : Regs} (h : Legal r) (i : Clock) : Legal (posedge r i) := by
  obtain ⟨-, he⟩ | ⟨-, -, he⟩ | ⟨-, -, he⟩ := posedge_cases r i <;> rw [he]
  · intro hen; cases hen
  · intro _; rfl
  · exact h

theorem run_legal {r : Regs} (h : Legal r) (is : List Clock) : Legal (run r is) := by
  induction is generalizing r with
  | nil => exact h
  | cons i is ih => exact ih (posedge_legal h i)

/-- Conservation: what was pending and is captured has fallen out or is pending. -/
theorem pending_captures {r : Regs} (h : Legal r) (is : List Clock) :
    pending r ++ captures r.state is = falls r is ++ pending (run r is) := by
  induction is generalizing r with
  | nil => simp [captures, falls]
  | cons i is ih =>
    have hrest := ih (posedge_legal h i)
    rw [posedge_state] at hrest
    obtain ⟨hi, he⟩ | ⟨hi, hs, he⟩ | ⟨hi, hs, he⟩ := posedge_cases r i
    · have hnone : pending (posedge r i) = [] := by simp [he, pending]
      have hfall : (falling r i).toList = pending r := by
        cases hen : r.en <;> simp [falling, pending, hen, he, output]
      rw [hnone, hi, List.nil_append] at hrest
      simp only [captures, hi, Bool.not_true, Bool.and_false, Bool.false_eq_true, if_false,
        falls, hfall, hrest, run_cons, List.append_assoc]
    · have hen : r.en = false := by
        cases hen : r.en with
        | false => rfl
        | true => rw [h hen] at hs; cases hs
      have hnew : pending (posedge r i) = [operands i.dataa i.datab] := by
        simp [he, pending, output, operands]
      have hnone : pending r = [] := by simp [pending, hen]
      have hfall : (falling r i).toList = [] := by simp [falling, hen]
      rw [hnew, hi, List.singleton_append] at hrest
      simp only [captures, hi, hs, Bool.not_false, Bool.and_true, if_true, falls, hfall, hnone,
        List.nil_append, run_cons, hrest]
    · have hsame : (falling r i).toList = [] := by cases hen : r.en <;> simp [falling, he, hen]
      rw [he, hi] at hrest
      simp only [captures, hi, hs, Bool.false_and, Bool.false_eq_true, if_false, falls, hsame,
        List.nil_append, he, run_cons]
      exact hrest

/-- Whether the last clock of a trace belongs to a strobe. -/
def strobing (is : List Clock) : Bool := (is.getLast?.map Clock.clkEn).getD false

theorem run_state {r : Regs} (h : r.state = false) (is : List Clock) :
    (run r is).state = strobing is := by
  obtain rfl | ⟨is, i, rfl⟩ := List.eq_nil_or_concat is
  · exact h
  · simp [run_append, posedge_state, strobing]

/-- Between captures the display lines do not move. -/
theorem output_posedge {r : Regs} {i : Clock} (h : (r.state && !i.clkEn) = false) :
    output (posedge r i) = output r := by
  obtain ⟨-, he⟩ | ⟨hi, hs, -⟩ | ⟨-, -, he⟩ := posedge_cases r i
  · rw [he]; rfl
  · simp [hi, hs] at h
  · rw [he]

/-- While en is high the display lines do not move, not even at the clock where en falls. -/
theorem output_enabled {r : Regs} (h : Legal r) (hen : r.en = true) (i : Clock) :
    output (posedge r i) = output r :=
  output_posedge (by simp [h hen])

/-- From a state with en high on, through the clock at which en falls. -/
theorem output_held {r : Regs} (h : Legal r) (is : List Clock)
    (hen : ∀ js, js <+: is → js ≠ is → (run r js).en = true) :
    output (run r is) = output r := by
  induction is generalizing r with
  | nil => rfl
  | cons i is ih =>
    have hfirst := output_enabled h (hen [] (by simp) (by simp)) i
    have hrest := ih (posedge_legal h i) fun js hjs hne =>
      hen (i :: js) (by simpa using hjs) (by simpa using hne)
    rw [run_cons, hrest, hfirst]

/-- Exactly-once delivery in order, for every trace from state 0 and en 0: the captures
are the commands of the falling edges followed by the one that en = 1 holds back; the
display lines change at capture clocks only, and not from a rise of en through its fall. -/
theorem delivery (r : Regs) (hstate : r.state = false) (hen : r.en = false) (is : List Clock) :
    captures false is =
        falls r is ++ (if (run r is).en then [output (run r is)] else []) ∧
      (∀ a i b, is = a ++ i :: b → (strobing a && !i.clkEn) = false →
        output (run r (a ++ [i])) = output (run r a)) ∧
      (∀ a i b c, is = a ++ i :: b ++ c → (run r a).en = false →
        (∀ b', b' <+: b → b' ≠ b → (run r (a ++ i :: b')).en = true) →
        ∀ b', b' <+: b → output (run r (a ++ i :: b')) = output (run r (a ++ [i]))) := by
  have hlegal : Legal r := fun h => by rw [hen] at h; cases h
  refine ⟨?_, ?_, ?_⟩
  · have hcons := pending_captures hlegal is
    rw [hstate] at hcons
    simpa [pending, hen] using hcons
  · intro a i b _ hquiet
    rw [run_append]
    exact output_posedge (by rw [run_state hstate, hquiet])
  · intro a i b c _ _ hhigh b' hb'
    have hrun : ∀ l, run r (a ++ i :: l) = run (run r (a ++ [i])) l := fun l => by
      rw [← run_append, List.append_assoc, List.singleton_append]
    rw [hrun]
    apply output_held (run_legal hlegal _)
    intro js hjs hne
    rw [← hrun]
    exact hhigh js (hjs.trans hb') fun he => hne (hjs.eq_of_length_le (he ▸ hb'.length_le))

/-- Two strobes of different lengths: the first command has fallen, the second is held. -/
theorem delivery_two :
    captures false [⟨true, 0, 0⟩, ⟨false, 0, 0x38⟩, ⟨true, 1, 0x61⟩, ⟨true, 1, 0x61⟩,
      ⟨false, 1, 0x61⟩] = [⟨false, 0x38⟩] ++ [⟨true, 0x61⟩] :=
  (delivery ⟨false, false, false, 0⟩ rfl rfl [⟨true, 0, 0⟩, ⟨false, 0, 0x38⟩, ⟨true, 1, 0x61⟩,
    ⟨true, 1, 0x61⟩, ⟨false, 1, 0x61⟩]).1

end LcdModule
