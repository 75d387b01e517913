import Mathlib.Data.List.Basic

/-!
# A transmitter with a holding and a shift register

A value written goes to the holding register, moves to the shift register when that
is free, and leaves after the time of one frame. Writing only into a free holding
register loses nothing; a bounded wait frees both registers.
-/
namespace TwoStage

variable {β : Type}

/-- The value held, the value being shifted with its remaining clocks, and what has left. -/
structure Transmitter (β : Type) where
  hold : Option β
  shift : Option (β × Nat)
  out : List β
  deriving DecidableEq, Repr

def idle : Transmitter β := ⟨none, none, []⟩

def ready (t : Transmitter β) : Bool := t.hold.isNone

/-- A write replaces whatever is held. -/
def write (t : Transmitter β) (b : β) : Transmitter β := { t with hold := some b }

/-- One clock; `frame` is the time of the frame that starts here, if one does. -/
def tick (frame : Nat) (t : Transmitter β) : Transmitter β :=
  match t.shift, t.hold with
  | some (b, n + 1), _ => { t with shift := some (b, n) }
  | some (b, 0), _ => { t with shift := none, out := t.out ++ [b] }
  | none, some b => { t with hold := none, shift := some (b, frame) }
  | none, none => t

/-- Everything that has been written and not replaced, in order. -/
def line (t : Transmitter β) : List β := t.out ++ (t.shift.map Prod.fst).toList ++ t.hold.toList

theorem line_tick (frame : Nat) (t : Transmitter β) : line (tick frame t) = line t := by
  obtain ⟨hold, shift, out⟩ := t
  cases shift with
  | none => cases hold <;> simp [tick, line]
  | some p =>
    obtain ⟨b, n⟩ := p
    cases n <;> simp [tick, line]

theorem line_write {t : Transmitter β} (h : t.hold = none) (b : β) :
    line (write t b) = line t ++ [b] := by
  simp [line, write, h]

/-- A clock never fills the holding register. -/
theorem hold_tick (frame : Nat) {t : Transmitter β} (h : t.hold = none) :
    (tick frame t).hold = none := by
  obtain ⟨hold, shift, out⟩ := t
  cases shift with
  | none =>
    have hnone : hold = none := h
    rw [hnone]
    rfl
  | some p =>
    obtain ⟨b, n⟩ := p
    cases n <;> exact h

def shiftTime (t : Transmitter β) : Nat :=
  match t.shift with
  | some (_, n) => n + 1
  | none => 0

/-- A bound on the clocks until both registers are free, for frames of at most `frame`. -/
def residual (frame : Nat) (t : Transmitter β) : Nat :=
  shiftTime t + if t.hold.isSome then frame + 2 else 0

/-- Every clock brings the end nearer. -/
theorem residual_tick {frame F : Nat} (hframe : frame ≤ F) (t : Transmitter β) :
    residual F (tick frame t) ≤ residual F t - 1 := by
  obtain ⟨hold, shift, out⟩ := t
  cases shift with
  | none =>
    cases hold with
    | none => simp [tick, residual, shiftTime]
    | some b =>
      simp only [tick, residual, shiftTime, Option.isSome_none, Option.isSome_some, if_true,
        Bool.false_eq_true, if_false]
      omega
  | some p =>
    obtain ⟨b, n⟩ := p
    cases n with
    | zero =>
      cases hold <;> simp [tick, residual, shiftTime]
    | succ n =>
      cases hold with
      | none => simp [tick, residual, shiftTime]
      | some c =>
        simp only [tick, residual, shiftTime, Option.isSome_some, if_true]
        omega

theorem shiftTime_tick {frame F : Nat} (hframe : frame ≤ F) {t : Transmitter β}
    (h : shiftTime t ≤ F + 1) : shiftTime (tick frame t) ≤ F + 1 := by
  obtain ⟨hold, shift, out⟩ := t
  cases shift with
  | none =>
    cases hold with
    | none => exact h
    | some b =>
      simp only [tick, shiftTime]
      omega
  | some p =>
    obtain ⟨b, n⟩ := p
    cases n with
    | zero =>
      simp only [tick, shiftTime]
      omega
    | succ n =>
      simp only [tick, shiftTime] at h ⊢
      omega

/-- With one frame under way, a write leaves at most two frames to wait for. -/
theorem residual_write {F : Nat} {t : Transmitter β} (h : shiftTime t ≤ F + 1) (b : β) :
    residual F (write t b) ≤ 2 * F + 3 := by
  have hshift : shiftTime (write t b) = shiftTime t := rfl
  have hheld : (write t b).hold.isSome = true := rfl
  rw [residual, hshift, hheld, if_pos rfl]
  omega

theorem hold_of_residual {F : Nat} {t : Transmitter β} (h : residual F t = 0) : t.hold = none := by
  cases hhold : t.hold with
  | none => rfl
  | some b =>
    rw [residual, hhold] at h
    simp at h

/-- A stretch of clocks without a write. -/
def ticks (t : Transmitter β) (frames : List Nat) : Transmitter β :=
  frames.foldl (fun t frame => tick frame t) t

@[simp] theorem ticks_nil (t : Transmitter β) : ticks t [] = t := rfl
@[simp] theorem ticks_cons (t : Transmitter β) (frame : Nat) (frames : List Nat) :
    ticks t (frame :: frames) = ticks (tick frame t) frames := rfl

theorem line_ticks (t : Transmitter β) (frames : List Nat) : line (ticks t frames) = line t := by
  induction frames generalizing t with
  | nil => rfl
  | cons frame frames ih => rw [ticks_cons, ih, line_tick]

theorem residual_ticks {F : Nat} {frames : List Nat} (h : ∀ frame ∈ frames, frame ≤ F)
    (t : Transmitter β) : residual F (ticks t frames) ≤ residual F t - frames.length := by
  induction frames generalizing t with
  | nil => exact Nat.le_refl _
  | cons frame frames ih =>
    have hfirst := residual_tick (h frame (by simp)) t
    have hrest := ih (fun f hf => h f (by simp [hf])) (tick frame t)
    rw [ticks_cons, List.length_cons]
    omega

/-- With both registers free, everything has left. -/
theorem out_of_residual {F : Nat} {t : Transmitter β} (h : residual F t = 0) : t.out = line t := by
  have hhold := hold_of_residual h
  obtain ⟨hold, shift, out⟩ := t
  cases shift with
  | none =>
    have hnone : hold = none := hhold
    simp [line, hnone]
  | some p => simp [residual, shiftTime] at h

end TwoStage
