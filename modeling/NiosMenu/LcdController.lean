import Mathlib.Data.Fin.Basic
import Mathlib.Data.List.DropRight
import Mathlib.Data.List.GetD
import Mathlib.Logic.Function.Basic
import NiosMenu.LcdBus
import NiosMenu.Networked

/-!
# The text on the display

The display controller as the source assumes it: two lines of forty cells, a cursor
that steps from cell to cell, and the four commands of the program that touch them.
Writing a label after home and clear shows that label, whatever was there before.
-/
namespace LcdController

open Firmware LcdModule LcdBus

def blank : Byte := 0x20

structure Controller where
  ram : Fin 80 → Byte
  cursor : Fin 80
  increment : Bool

def blankDisplay : Controller := ⟨fun _ => blank, 0, true⟩

/-- Execution of one command; set-up commands other than 0x06 leave the text alone. -/
def exec (d : Controller) (c : Command) : Controller :=
  if c.rs then
    { d with
      ram := Function.update d.ram d.cursor c.display
      cursor := if d.increment then d.cursor + 1 else d.cursor - 1 }
  else if c.display = 0x01#8 then { d with ram := fun _ => blank, cursor := 0 }
  else if c.display = 0x02#8 then { d with cursor := 0 }
  else if c.display = 0x06#8 then { d with increment := true }
  else d

def execAll (d : Controller) (cs : List Command) : Controller := cs.foldl exec d

@[simp] theorem execAll_nil (d : Controller) : execAll d [] = d := rfl
@[simp] theorem execAll_cons (d : Controller) (c : Command) (cs : List Command) :
    execAll d (c :: cs) = execAll (exec d c) cs := rfl
theorem execAll_append (d : Controller) (cs ds : List Command) :
    execAll d (cs ++ ds) = execAll (execAll d cs) ds := List.foldl_append

def clear : Command := ⟨false, 0x01⟩
def home : Command := ⟨false, 0x02⟩
def noEffect : Command := ⟨false, 0x00⟩
def character (c : Byte) : Command := ⟨true, c⟩

@[simp] theorem exec_noEffect (d : Controller) : exec d noEffect = d := rfl

/-- Exactly this text from the first column on, and blanks everywhere else. -/
def Shows (d : Controller) (s : List Byte) : Prop := ∀ i : Fin 80, d.ram i = s.getD i blank

/-- The text stands with the cursor behind it, ready for the next character. -/
structure Typed (d : Controller) (s : List Byte) : Prop where
  shows : Shows d s
  cursor : d.cursor.val = s.length
  increment : d.increment = true

/-- The visible text: all cells up to the last one that is not blank. -/
def text (d : Controller) : List Byte := (List.ofFn d.ram).rdropWhile (· == blank)

theorem shows_cells {d : Controller} {s : List Byte} (h : Shows d s) (hs : s.length ≤ 80) :
    List.ofFn d.ram = s ++ List.replicate (80 - s.length) blank := by
  apply List.ext_getElem
  · simp; omega
  · intro i hi _
    rw [List.length_ofFn] at hi
    rw [List.getElem_ofFn, h ⟨i, hi⟩, List.getElem_append]
    split
    · simp [*]
    · rw [List.getElem_replicate]
      exact List.getD_eq_default _ _ (by simp only; omega)

theorem shows_text {d : Controller} {s : List Byte} (h : Shows d s) (hs : s.length ≤ 80)
    (hlast : s.getLast? ≠ some blank) : text d = s := by
  have hkeep : s.rdropWhile (· == blank) = s := by
    apply List.rdropWhile_eq_self_iff.mpr
    intro hne hb
    apply hlast
    rw [List.getLast?_eq_some_getLast hne]
    simpa using hb
  have hdrop : ∀ n, (s ++ List.replicate n blank).rdropWhile (· == blank) = s := by
    intro n
    induction n with
    | zero => simpa using hkeep
    | succ n ih =>
      rw [List.replicate_succ', ← List.append_assoc, List.rdropWhile_concat_pos _ _ _ (by simp)]
      exact ih
  rw [text, shows_cells h hs, hdrop]

/-- The two lines of forty cells. -/
def firstLine (d : Controller) : List Byte := (List.ofFn d.ram).take 40
def secondLine (d : Controller) : List Byte := (List.ofFn d.ram).drop 40

/-- A text of at most one line stands in the first line, and the second one is blank. -/
theorem shows_lines {d : Controller} {s : List Byte} (h : Shows d s) (hs : s.length ≤ 40) :
    firstLine d = s ++ List.replicate (40 - s.length) blank ∧
      secondLine d = List.replicate 40 blank := by
  have hcells := shows_cells h (by omega)
  have hrest : 80 - s.length - (40 - s.length) = 40 := by omega
  constructor
  · rw [firstLine, hcells, List.take_append, List.take_of_length_le hs, List.take_replicate]
    congr 2
    omega
  · rw [secondLine, hcells, List.drop_append, List.drop_of_length_le hs, List.drop_replicate, hrest,
      List.nil_append]

theorem typed_clear (d : Controller) (h : d.increment = true) : Typed (exec d clear) [] :=
  ⟨fun _ => rfl, rfl, h⟩

/-- One more character, as long as the cell after it exists. -/
theorem typed_character {d : Controller} {s : List Byte} (h : Typed d s) (c : Byte)
    (hs : s.length + 1 < 80) : Typed (exec d (character c)) (s ++ [c]) := by
  obtain ⟨hshows, hcur, hinc⟩ := h
  refine ⟨?_, ?_, hinc⟩
  · intro i
    simp only [exec, character, if_true]
    by_cases hi : i = d.cursor
    · subst hi
      simp [hcur]
    · have hne : i.val ≠ s.length := fun he => hi (Fin.ext (he.trans hcur.symm))
      rw [Function.update_of_ne hi, hshows i]
      obtain hlt | hge := Nat.lt_or_ge i.val s.length
      · rw [List.getD_append _ _ _ _ hlt]
      · rw [List.getD_eq_default _ _ hge, List.getD_eq_default]
        simp only [List.length_append, List.length_singleton]
        omega
  · simp only [exec, character, if_true, hinc, List.length_append, List.length_singleton]
    rw [Fin.val_add_one_of_lt' (by omega), hcur]

theorem typed_characters {d : Controller} {s : List Byte} (h : Typed d s) (cs : List Byte)
    (hs : s.length + cs.length < 80) : Typed (execAll d (cs.map character)) (s ++ cs) := by
  induction cs generalizing d s with
  | nil => simpa using h
  | cons c cs ih =>
    simp only [List.length_cons] at hs
    have hnext := ih (typed_character h c (by omega)) (by simp; omega)
    simpa using hnext

/-- The commands of one `imprime` call. -/
def imprimeCommands (s : List Byte) : List Command :=
  [home, clear] ++ s.map character ++ [noEffect]

/-- Whatever was shown and wherever the cursor was, the label is shown alone. -/
theorem typed_imprime (d : Controller) (h : d.increment = true) (s : List Byte)
    (hs : s.length < 80) : Typed (execAll d (imprimeCommands s)) s := by
  have hclear : Typed (exec (exec d home) clear) [] := typed_clear _ h
  have htyped := typed_characters hclear s (by simpa using hs)
  simpa [imprimeCommands, execAll_append] using htyped

/-- The LCD side of a device access, with its operands as the display reads them. -/
def lcdCommand : Action → List Command
  | .lcd dataa datab => [operands dataa datab]
  | _ => []

theorem issued_commands (t : Nat) (as : List Action) :
    (issued t (as.flatMap busOp)).map Prod.snd = as.flatMap lcdCommand := by
  induction as generalizing t with
  | nil => rfl
  | cons a as ih => cases a <;> simp [busOp, lcdCommand, issued, ih]

/-- `imprime` issues home, clear, the elements before the last one and the no-effect 0x00. -/
theorem imprime_commands (opcao : List Byte) (size : Int) (hsize : size - 1 ≤ opcao.length) :
    (Networked.imprime opcao size).flatMap (owing lcdCommand []) =
      imprimeCommands (opcao.take (size - 1).toNat) := by
  have hloop := forLoop_take opcao (size - 1) hsize
    fun c => [usleep 2000, altCiLcd0 0x1 (promote c)]
  have hchar : ∀ c : Byte, operands 0x1 (promote c) = character c := fun c => by
    simp [operands, character]
  simp only [Networked.imprime, charAt, hloop, List.flatMap_append, List.flatMap_assoc]
  simp only [List.flatMap_cons, List.flatMap_nil, owing_act, lcdCommand, hchar]
  rw [imprimeCommands, List.map_eq_flatMap]
  rfl

end LcdController
