import Mathlib.Data.List.Basic

/-!
# A register for one value that tells of losses

At each clock a value may arrive and a reader may take the value held. A value that
arrives while another one is held is a loss and sets the overrun flag, also in the
clock in which that one is taken: the reader then gets the old value and the new one
is gone. As long as the flag is off, nothing is missing.
-/
namespace OnePlace

variable {α : Type}

structure Register (α : Type) where
  held : Option α
  overrun : Bool
  deriving DecidableEq, Repr

def empty : Register α := ⟨none, false⟩

/-- One clock, with or without a read and an arrival. -/
def Register.next (r : Register α) (m : Bool × Option α) : Register α :=
  ⟨if m.1 then none else m.2.or r.held, m.2.isSome && r.held.isSome || r.overrun⟩

def Register.run (r : Register α) (ms : List (Bool × Option α)) : Register α :=
  ms.foldl Register.next r

/-- The values that arrive and those that are taken. -/
def arrivals (ms : List (Bool × Option α)) : List α := ms.filterMap Prod.snd

def taken : Register α → List (Bool × Option α) → List α
  | _, [] => []
  | r, m :: ms => (if m.1 then r.held.toList else []) ++ taken (r.next m) ms

@[simp] theorem run_nil (r : Register α) : r.run [] = r := rfl
@[simp] theorem run_cons (r : Register α) (m : Bool × Option α) (ms : List (Bool × Option α)) :
    r.run (m :: ms) = (r.next m).run ms := rfl

theorem arrivals_cons (m : Bool × Option α) (ms : List (Bool × Option α)) :
    arrivals (m :: ms) = m.2.toList ++ arrivals ms := by
  obtain ⟨read, new⟩ := m
  cases new <;> simp [arrivals]

/-- Only a value that is there is taken. -/
def Guarded : Register α → List (Bool × Option α) → Prop
  | _, [] => True
  | r, m :: ms => (m.1 = true → r.held.isSome = true) ∧ Guarded (r.next m) ms

/-- What was taken and what is held are what arrived, or the flag is on and something is
missing. -/
structure Kept (r : Register α) (arr tak : List α) : Prop where
  sublist : (tak ++ r.held.toList).Sublist arr
  whole : r.overrun = false → tak ++ r.held.toList = arr
  short : r.overrun = true → (tak ++ r.held.toList).length < arr.length

theorem kept_next {r : Register α} {m : Bool × Option α} {arr tak : List α}
    (h : Kept r arr tak) (hread : m.1 = true → r.held.isSome = true) :
    Kept (r.next m) (arr ++ m.2.toList) (tak ++ if m.1 then r.held.toList else []) := by
  obtain ⟨held, overrun⟩ := r
  obtain ⟨read, new⟩ := m
  obtain ⟨hsublist, hwhole, hshort⟩ := h
  have hlength := hsublist.length_le
  cases read with
  | true =>
    obtain ⟨a, rfl⟩ := Option.isSome_iff_exists.mp (hread rfl)
    cases new with
    | none => exact ⟨by simpa [Register.next] using hsublist,
        by simpa [Register.next] using hwhole, by simpa [Register.next] using hshort⟩
    | some b =>
      -- the value held is taken, and the one that arrives is lost
      refine ⟨?_, by simp [Register.next], fun _ => ?_⟩
      · have hmore := hsublist.trans (List.sublist_append_left arr [b])
        simpa [Register.next] using hmore
      · simp at hlength
        simp [Register.next]
        omega
  | false =>
    cases new with
    | none => exact ⟨by simpa [Register.next] using hsublist,
        by simpa [Register.next] using hwhole, by simpa [Register.next] using hshort⟩
    | some b =>
      have htak : tak.Sublist arr := (List.sublist_append_left _ _).trans hsublist
      refine ⟨by simpa [Register.next] using htak, ?_, ?_⟩
      · intro hoff
        cases held <;> simp_all [Register.next]
      · intro hon
        cases held with
        | none => simpa [Register.next] using hshort (by simpa [Register.next] using hon)
        | some a =>
          simp at hlength
          simp [Register.next]
          omega

theorem run_kept {r : Register α} {ms : List (Bool × Option α)} {arr tak : List α}
    (h : Kept r arr tak) (hguarded : Guarded r ms) :
    Kept (r.run ms) (arr ++ arrivals ms) (tak ++ taken r ms) := by
  induction ms generalizing r arr tak with
  | nil => simpa [arrivals, taken] using h
  | cons m ms ih =>
    have hrest := ih (kept_next h hguarded.1) hguarded.2
    rw [List.append_assoc, List.append_assoc] at hrest
    rwa [run_cons, arrivals_cons, taken]

/-- The flag is off exactly as long as nothing is missing. -/
theorem Kept.overrun_iff {r : Register α} {arr tak : List α} (h : Kept r arr tak) :
    r.overrun = false ↔ tak ++ r.held.toList = arr := by
  refine ⟨h.whole, fun heq => ?_⟩
  cases hon : r.overrun with
  | false => rfl
  | true =>
    have hless := h.short hon
    rw [heq] at hless
    exact absurd hless (Nat.lt_irrefl _)

end OnePlace
