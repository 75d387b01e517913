import NiosMenu.LcdModule

/-!
# Custom instructions on the clock

Each `ALT_CI_LCD_0(a, b)` is one strobe and at least one clock that still holds its
operands; any number of idle clocks may stand anywhere. Through the module an
instruction is accepted by the display when the next one is issued, and no sooner.
-/
namespace LcdBus

open Firmware LcdModule

/-- The accesses of the program that matter here: waiting and issuing an instruction. -/
inductive Op where
  | pause (us : Nat)
  | instr (dataa datab : Word)
  deriving DecidableEq, Repr

def busOp : Action → List Op
  | .usleep us => [.pause us]
  | .lcd dataa datab => [.instr dataa datab]
  | _ => []

/-- Clock traces that carry out a list of operations; time is the sum of the pauses. -/
inductive Carries : Nat → List Op → List (Nat × Clock) → Prop where
  | done (t : Nat) : Carries t [] []
  | idle {t : Nat} {ops : List Op} {is : List (Nat × Clock)} (i : Clock) :
      i.clkEn = false → Carries t ops is → Carries t ops ((t, i) :: is)
  | pause {t : Nat} {ops : List Op} {is : List (Nat × Clock)} (us : Nat) :
      Carries (t + us) ops is → Carries t (.pause us :: ops) is
  | instr {t : Nat} {ops : List Op} {is : List (Nat × Clock)} (a b : Word) (strobe : List Clock) :
      strobe ≠ [] → (∀ i ∈ strobe, i.clkEn = true) → Carries t ops is →
      Carries t (.instr a b :: ops) (strobe.map (t, ·) ++ (t, ⟨false, a, b⟩) :: is)

/-- The shortest such trace: strobes of one clock and no idle clocks. -/
def shortest : Nat → List Op → List (Nat × Clock)
  | _, [] => []
  | t, .pause us :: ops => shortest (t + us) ops
  | t, .instr a b :: ops => (t, ⟨true, a, b⟩) :: (t, ⟨false, a, b⟩) :: shortest t ops

theorem carries_shortest (t : Nat) (ops : List Op) : Carries t ops (shortest t ops) := by
  induction ops generalizing t with
  | nil => exact .done t
  | cons op ops ih =>
    cases op with
    | pause us => exact .pause us (ih (t + us))
    | instr a b => exact .instr a b [⟨true, a, b⟩] (by simp) (by simp) (ih t)

/-- A trace of one list of operations after another is a trace of each, one after the other. -/
theorem carries_split {t : Nat} {ops more : List Op} {is : List (Nat × Clock)}
    (h : Carries t (ops ++ more) is) :
    ∃ t' is₁ is₂, is = is₁ ++ is₂ ∧ Carries t ops is₁ ∧ Carries t' more is₂ := by
  generalize hall : ops ++ more = all at h
  induction h generalizing ops with
  | done t =>
    obtain ⟨rfl, rfl⟩ := List.append_eq_nil_iff.mp hall
    exact ⟨t, [], [], rfl, .done t, .done t⟩
  | @idle t _ _ i hi _ ih =>
    obtain ⟨t', is₁, is₂, rfl, h₁, h₂⟩ := ih hall
    exact ⟨t', (t, i) :: is₁, is₂, rfl, .idle i hi h₁, h₂⟩
  | @pause t _ is us hrest ih =>
    cases ops with
    | nil =>
      obtain rfl : more = _ := hall
      exact ⟨t, [], is, rfl, .done t, .pause us hrest⟩
    | cons op ops =>
      obtain ⟨rfl, hops⟩ := List.cons_eq_cons.mp hall
      obtain ⟨t', is₁, is₂, rfl, h₁, h₂⟩ := ih hops
      exact ⟨t', is₁, is₂, rfl, .pause us h₁, h₂⟩
  | @instr t _ is a b strobe hne hs hrest ih =>
    cases ops with
    | nil =>
      obtain rfl : more = _ := hall
      exact ⟨t, [], _, rfl, .done t, .instr a b strobe hne hs hrest⟩
    | cons op ops =>
      obtain ⟨rfl, hops⟩ := List.cons_eq_cons.mp hall
      obtain ⟨t', is₁, is₂, rfl, h₁, h₂⟩ := ih hops
      exact ⟨t', _, is₂, by simp, .instr a b strobe hne hs h₁, h₂⟩

/-- The commands accepted at the falling edges of en, with their times. -/
def accepted : Regs → List (Nat × Clock) → List (Nat × Command)
  | _, [] => []
  | r, (t, i) :: is => ((falling r i).map (t, ·)).toList ++ accepted (posedge r i) is

theorem accepted_append (r : Regs) (is js : List (Nat × Clock)) :
    accepted r (is ++ js) = accepted r is ++ accepted (run r (is.map Prod.snd)) js := by
  induction is generalizing r with
  | nil => rfl
  | cons i is ih => simp [accepted, ih, List.append_assoc]

/-- Without the time stamps these are the falling edges of the module. -/
theorem accepted_falls (r : Regs) (is : List (Nat × Clock)) :
    (accepted r is).map Prod.snd = falls r (is.map Prod.snd) := by
  induction is generalizing r with
  | nil => rfl
  | cons i is ih =>
    obtain ⟨t, i⟩ := i
    cases hf : falling r i <;> simp [accepted, falls, hf, ih]

/-- The commands of the instructions, with the times at which they are issued. -/
def issued : Nat → List Op → List (Nat × Command)
  | _, [] => []
  | t, .pause us :: ops => issued (t + us) ops
  | t, .instr a b :: ops => (t, operands a b) :: issued t ops

/-- Delivery one instruction late: every issue releases the command held before it. -/
def lagged : Option Command → List (Nat × Command) → List (Nat × Command)
  | _, [] => []
  | held, (t, c) :: cs => (held.map (t, ·)).toList ++ lagged (some c) cs

/-- The command that the module holds back. -/
def held (r : Regs) : Option Command := if r.en then some (output r) else none

/-- The last command of a list, or what was held before it. -/
def lastHeld (h : Option Command) (cs : List (Nat × Command)) : Option Command :=
  (cs.getLast?.map Prod.snd).or h

/-- A strobe lowers en at its first clock and keeps it low. -/
theorem strobe_run (r : Regs) (t : Nat) (strobe : List Clock) (hne : strobe ≠ [])
    (hs : ∀ i ∈ strobe, i.clkEn = true) :
    run r strobe = { r with en := false, state := true } ∧
      accepted r (strobe.map (t, ·)) = ((held r).map (t, ·)).toList := by
  induction strobe generalizing r with
  | nil => exact absurd rfl hne
  | cons i strobe ih =>
    have hi := posedge_strobe (r := r) (hs i (by simp))
    have hfirst : falling r i = held r := by
      cases hen : r.en <;> simp [falling, held, hen, hi, output]
    by_cases hrest : strobe = []
    · subst hrest
      simp [accepted, hfirst, hi]
    · obtain ⟨hr, ha⟩ := ih { r with en := false, state := true } hrest
        fun j hj => hs j (by simp [hj])
      constructor
      · rw [run_cons, hi, hr]
      · simp [accepted, hfirst, hi, ha, held]

/-- Whatever clocks carry out the operations, the display accepts every command at the
issue of the next one, and the last one stays in the module. -/
theorem carries_accepted {t : Nat} {ops : List Op} {is : List (Nat × Clock)}
    (h : Carries t ops is) {r : Regs} (hr : r.state = false) :
    accepted r is = lagged (held r) (issued t ops) ∧
      held (run r (is.map Prod.snd)) = lastHeld (held r) (issued t ops) := by
  induction h generalizing r with
  | done t => simp [accepted, issued, lagged, lastHeld]
  | idle i hi _ ih =>
    have hsame := posedge_idle hi hr
    have hnone : falling r i = none := by cases hen : r.en <;> simp [falling, hsame, hen]
    simpa [accepted, hnone, hsame] using ih hr
  | pause us _ ih => exact ih hr
  | @instr t ops is a b strobe hne hs _ ih =>
    obtain ⟨hrun, hacc⟩ := strobe_run r t strobe hne hs
    have hcap : posedge { r with en := false, state := true } ⟨false, a, b⟩ =
        ⟨true, false, a.getLsbD 0, low b⟩ := posedge_capture rfl rfl
    have hmap : (strobe.map ((t, ·) : Clock → Nat × Clock)).map Prod.snd = strobe := by
      simp [Function.comp_def]
    obtain ⟨ha, hh⟩ := @ih ⟨true, false, a.getLsbD 0, low b⟩ rfl
    have hheld : held ⟨true, false, a.getLsbD 0, low b⟩ = some (operands a b) := rfl
    constructor
    · rw [accepted_append, hmap, hrun, hacc, accepted, hcap, ha, hheld, issued, lagged]
      simp [falling]
    · rw [List.map_append, hmap, run_append, hrun, List.map_cons, run_cons, hcap, hh, hheld,
        issued, lastHeld, lastHeld]
      cases hlast : (issued t ops).getLast? <;> simp [List.getLast?_cons, hlast]

theorem lagged_some (c : Command) (cs : List (Nat × Command)) :
    lagged (some c) cs = (cs.map Prod.fst).zip (c :: cs.map Prod.snd) := by
  induction cs generalizing c with
  | nil => rfl
  | cons d cs ih =>
    obtain ⟨t, d⟩ := d
    simp [lagged, ih d]

/-- With nothing held, each command is accepted at the time of the issue after its own. -/
theorem lagged_none (cs : List (Nat × Command)) :
    lagged none cs = (cs.map Prod.fst).tail.zip (cs.map Prod.snd) := by
  cases cs with
  | nil => rfl
  | cons c cs => simpa [lagged] using lagged_some c.2 cs

theorem lagged_commands (h : Option Command) (cs : List (Nat × Command)) :
    (lagged h cs).map Prod.snd = (h.toList ++ cs.map Prod.snd).dropLast := by
  induction cs generalizing h with
  | nil => cases h <;> rfl
  | cons c cs ih =>
    obtain ⟨t, c⟩ := c
    have hhead : ((h.map (t, ·)).toList).map Prod.snd = h.toList := by cases h <;> rfl
    rw [lagged, List.map_append, hhead, ih, List.map_cons]
    exact (List.dropLast_append_of_ne_nil (List.cons_ne_nil c (cs.map Prod.snd))).symm

/-- The display has executed every command but the last one, and first of all the one that
was held before. -/
theorem carries_falls {t : Nat} {ops : List Op} {is : List (Nat × Clock)}
    (h : Carries t ops is) {r : Regs} (hr : r.state = false) :
    falls r (is.map Prod.snd) = ((held r).toList ++ (issued t ops).map Prod.snd).dropLast ∧
      held (run r (is.map Prod.snd)) = ((issued t ops).map Prod.snd).getLast?.or (held r) := by
  obtain ⟨hacc, hheld⟩ := carries_accepted h hr
  constructor
  · rw [← accepted_falls, hacc, lagged_commands]
  · rw [hheld, lastHeld, List.getLast?_map]

/-- Between two instructions no strobe is open. -/
theorem carries_state {t : Nat} {ops : List Op} {is : List (Nat × Clock)}
    (h : Carries t ops is) {r : Regs} (hr : r.state = false) :
    (run r (is.map Prod.snd)).state = false := by
  induction h generalizing r with
  | done t => exact hr
  | idle i hi _ ih =>
    rw [List.map_cons, run_cons]
    exact ih (by rw [posedge_state, hi])
  | pause us _ ih => exact ih hr
  | instr a b strobe hne hs _ ih =>
    rw [List.map_append, run_append, List.map_cons, run_cons]
    exact ih (posedge_state _ _)

end LcdBus
