import Mathlib.Tactic.IntervalCases
import NiosMenu.LcdBus
import NiosMenu.Networked

/-!
# Waiting times through the lcd module

The program paces the custom instructions, but the display accepts a command only
when the next one is issued. Equal pauses hide the shift; after the first and the
third function set of `initialize_Lcd` the display waits for less than the source asks.
-/
namespace LcdTiming

open Firmware LcdModule LcdBus Networked

/-- `initialize_Lcd` followed by calls of `imprime` with their arrays and sizes. -/
def program (calls : List (List Byte × Int)) : List Stmt :=
  initializeLcd ++ calls.flatMap fun call => imprime call.1 call.2

/-- The custom instructions and pauses of a program. -/
def ops (p : List Stmt) : List Op := p.flatMap (owing busOp [])

theorem ops_append (p q : List Stmt) : ops (p ++ q) = ops p ++ ops q := List.flatMap_append

/-- Each command with the pause that stands directly after it. -/
def paused : List Op → List (Command × Nat)
  | [] => []
  | .instr a b :: .pause us :: more => (operands a b, us) :: paused more
  | .instr a b :: more => (operands a b, 0) :: paused more
  | .pause _ :: more => paused more

/-- Instructions at a fixed pace. -/
def steady (us : Nat) (L : List (Word × Word)) : List Op :=
  L.flatMap fun i => [.pause us, .instr i.1 i.2]

@[simp] theorem steady_nil (us : Nat) : steady us [] = [] := rfl
@[simp] theorem steady_cons (us : Nat) (i : Word × Word) (L : List (Word × Word)) :
    steady us (i :: L) = .pause us :: .instr i.1 i.2 :: steady us L := rfl

theorem steady_append (us : Nat) (L M : List (Word × Word)) :
    steady us (L ++ M) = steady us L ++ steady us M := List.flatMap_append

theorem paused_commands (t : Nat) (more : List Op) :
    (paused more).map Prod.fst = (issued t more).map Prod.snd := by
  induction more using paused.induct generalizing t with
  | case1 => rfl
  | case2 a b us more ih => simp [paused, issued, ih (t + us)]
  | case3 a b more hmore ih =>
    rw [paused, issued, List.map_cons, List.map_cons, ih t]
    exact hmore
  | case4 us more ih => simp [paused, issued, ih (t + us)]

/-- At a fixed pace every pause but the last one stands directly after a command. -/
theorem paused_steady (us : Nat) (i : Word × Word) (L : List (Word × Word)) :
    (paused (steady us (i :: L))).map Prod.snd = List.replicate L.length us ++ [0] := by
  induction L generalizing i with
  | nil => rfl
  | cons j L ih =>
    have hstep : paused (steady us (i :: j :: L)) =
        (operands i.1 i.2, us) :: paused (steady us (j :: L)) := rfl
    rw [hstep, List.map_cons, ih, List.length_cons, List.replicate_succ, List.cons_append]

theorem issued_steady (us t : Nat) (L : List (Word × Word)) :
    (issued t (steady us L)).map Prod.fst =
      (List.range L.length).map fun j => t + us * (j + 1) := by
  induction L generalizing t with
  | nil => rfl
  | cons i L ih =>
    rw [steady_cons, issued, issued, List.map_cons, ih, List.length_cons, List.range_succ_eq_map,
      List.map_cons, List.map_map]
    have hfirst : t + us = t + us * (0 + 1) := by omega
    have hrest : ∀ j, t + us + us * (j + 1) = t + us * (j + 1 + 1) := by
      intro j
      rw [Nat.mul_succ us (j + 1)]
      omega
    simp only [Function.comp_def, hrest]
    exact congrArg (· :: _) hfirst

/-- The custom instructions of one `imprime` call. -/
def instructions (call : List Byte × Int) : List (Word × Word) :=
  [(0x0, 0x02), (0x0, 0x01)] ++
  (List.range (call.2 - 1).toNat).map (fun i => (0x1, charAt call.1 i)) ++ [(0x0, 0x00)]

theorem ops_imprime (call : List Byte × Int) :
    ops (imprime call.1 call.2) = steady 2000 (instructions call) := by
  have hloop : ops (forLoop (call.2 - 1) fun i => [usleep 2000, altCiLcd0 0x1 (charAt call.1 i)]) =
      steady 2000 ((List.range (call.2 - 1).toNat).map fun i => (0x1, charAt call.1 i)) := by
    rw [ops, forLoop, steady, List.flatMap_assoc, List.flatMap_map]
    rfl
  rw [imprime, instructions, ops_append, ops_append, hloop, steady_append, steady_append]
  rfl

/-- Everything after `initialize_Lcd` runs at one pace. -/
theorem ops_program (calls : List (List Byte × Int)) :
    ops (program calls) =
      ops initializeLcd ++ steady 2000 (calls.flatMap instructions) := by
  rw [program, ops_append]
  congr 1
  induction calls with
  | nil => rfl
  | cons call calls ih =>
    rw [List.flatMap_cons, List.flatMap_cons, ops_append, ops_imprime, ih, steady_append]

/-- The issue times of the set-up, and those of the calls after it. -/
theorem program_times (t : Nat) (L : List (Word × Word)) :
    (issued t (ops initializeLcd ++ steady 2000 L)).map Prod.fst =
      [15000, 19100, 19200, 24200, 24300, 24400, 24500, 24600, 26600].map (t + ·) ++
        (List.range L.length).map fun j => t + 28600 + 2000 * (j + 1) := by
  have hsetup : (issued t (ops initializeLcd ++ steady 2000 L)).map Prod.fst =
      [15000, 19100, 19200, 24200, 24300, 24400, 24500, 24600, 26600].map (t + ·) ++
        (issued (t + 28600) (steady 2000 L)).map Prod.fst := by
    simp [ops, initializeLcd, busOp, issued, Nat.add_assoc]
  rw [hsetup, issued_steady]

/-- The pauses that the source places directly after the commands. -/
theorem program_pauses (L : List (Word × Word)) :
    (paused (ops initializeLcd ++ steady 2000 L)).map Prod.snd =
      [4100, 100, 5000, 100, 100, 100, 100, 2000, 2000] ++
        (paused (steady 2000 L)).map Prod.snd := rfl

theorem behind_setup {A : List Nat} (hA : A.length = 9) (B : List Nat) (j : Nat) :
    (A ++ B)[9 + j]? = B[j]? := by
  rw [List.getElem?_append_right (by omega), hA, Nat.add_sub_cancel_left]

theorem steady_time {t n j x : Nat}
    (h : ((List.range n).map fun j => t + 28600 + 2000 * (j + 1))[j]? = some x) :
    j < n ∧ x = t + 28600 + 2000 * (j + 1) := by
  rw [List.getElem?_map, Option.map_eq_some_iff] at h
  obtain ⟨i, hi, rfl⟩ := h
  obtain ⟨hj, hij⟩ := List.getElem?_eq_some_iff.mp hi
  rw [List.getElem_range] at hij
  rw [List.length_range] at hj
  exact ⟨hj, by rw [hij]⟩

theorem steady_pause {us j d : Nat} {L : List (Word × Word)} (hj : j + 1 < L.length)
    (h : ((paused (steady us L)).map Prod.snd)[j]? = some d) : d = us := by
  cases L with
  | nil => simp at hj
  | cons i L =>
    have hlen : j < L.length := by simpa using hj
    rw [paused_steady, List.getElem?_append_left (by simpa using hlen),
      List.getElem?_replicate_of_lt hlen] at h
    exact (Option.some.inj h).symm

/-- Two issues after command k and the pause behind it: the pause fits between the issues
unless the next issue is one of the two short ones of the set-up. -/
theorem issue_gap_iff (t : Nat) (L : List (Word × Word)) {k x y d : Nat}
    (hx : ((issued t (ops initializeLcd ++ steady 2000 L)).map Prod.fst)[k + 1]? = some x)
    (hy : ((issued t (ops initializeLcd ++ steady 2000 L)).map Prod.fst)[k + 2]? = some y)
    (hd : ((paused (ops initializeLcd ++ steady 2000 L)).map Prod.snd)[k]? = some d) :
    x + d ≤ y ↔ k ≠ 0 ∧ k ≠ 2 := by
  rw [program_times] at hx hy
  rw [program_pauses] at hd
  have hcases : k < 7 ∨ k = 7 ∨ k = 8 ∨ 9 ≤ k := by omega
  obtain hk | rfl | rfl | hk := hcases
  · interval_cases k <;> simp at hx hy hd <;> omega
  · obtain ⟨-, rfl⟩ := steady_time (j := 0) hy
    simp at hx hd
    omega
  · obtain ⟨-, rfl⟩ := steady_time (j := 0) hx
    obtain ⟨-, rfl⟩ := steady_time (j := 1) hy
    simp at hd
    omega
  · obtain ⟨j, rfl⟩ := Nat.exists_eq_add_of_le hk
    rw [Nat.add_assoc, behind_setup rfl] at hx hy
    rw [behind_setup rfl] at hd
    obtain ⟨-, rfl⟩ := steady_time hx
    obtain ⟨hj, rfl⟩ := steady_time hy
    have hpause : d = 2000 := steady_pause (by omega) hd
    omega

/-- A command waits for its pause before the display accepts the next one, except the
first and the third function set of the set-up. -/
theorem acceptance_gap_iff {r : Regs} (hen : r.en = false) (hstate : r.state = false)
    (calls : List (List Byte × Int)) {t : Nat} {is : List (Nat × Clock)}
    (hclocks : Carries t (ops (program calls)) is) {k : Nat} {a b : Nat × Command}
    (ha : (accepted r is)[k]? = some a) (hb : (accepted r is)[k + 1]? = some b) :
    ∃ d, (paused (ops (program calls)))[k]? = some (a.2, d) ∧
      (a.1 + d ≤ b.1 ↔ k ≠ 0 ∧ k ≠ 2) := by
  have hnone : held r = none := by simp [held, hen]
  rw [(carries_accepted hclocks hstate).1, hnone, lagged_none, List.getElem?_zip_eq_some,
    List.getElem?_tail] at ha hb
  obtain ⟨hx, hc⟩ := ha
  rw [← paused_commands, List.getElem?_map] at hc
  obtain ⟨p, hp, hpa⟩ := Option.map_eq_some_iff.mp hc
  refine ⟨p.2, by rw [hp, ← hpa], ?_⟩
  have hd : ((paused (ops (program calls))).map Prod.snd)[k]? = some p.2 := by
    rw [List.getElem?_map, hp, Option.map_some]
  rw [ops_program] at hx hb hd
  exact issue_gap_iff t _ hx hb.1 hd

/-- The set-up alone, in the shortest clock trace. -/
def setupClocks : List (Nat × Clock) := shortest 0 (ops (program []))

theorem acceptance_gap_second :
    ∃ d, (paused (ops (program [])))[1]? = some (⟨false, 0x38⟩, d) ∧ 19200 + d ≤ 24200 := by
  obtain ⟨d, hd, hgap⟩ := @acceptance_gap_iff powerUp rfl rfl [] 0 setupClocks
    (carries_shortest 0 _) 1 (19200, ⟨false, 0x38⟩) (24200, ⟨false, 0x38⟩) (by decide)
    (by decide)
  exact ⟨d, hd, hgap.mpr (by decide)⟩

/-- The source waits 4100 us after the first function set; the display accepts the second
one 100 us after the first. -/
theorem first_function_set_early :
    Carries 0 (ops (program [])) setupClocks ∧
    (accepted powerUp setupClocks)[0]? = some (19100, ⟨false, 0x38⟩) ∧
    (accepted powerUp setupClocks)[1]? = some (19200, ⟨false, 0x38⟩) ∧
    (paused (ops (program [])))[0]? = some (⟨false, 0x38⟩, 4100) ∧ ¬ 19100 + 4100 ≤ 19200 := by
  refine ⟨carries_shortest 0 _, ?_⟩
  decide

end LcdTiming
