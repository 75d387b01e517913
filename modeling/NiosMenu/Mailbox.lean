import NiosMenu.Reactive

/-!
# A data register without a buffer

A program reads its input from one register. An arriving value overwrites the
register; a read takes the value out. What a run has read and still holds is what
arrived, without the values that were overwritten before the program came to them.
-/
namespace Mailbox

open Reactive

variable {σ τ ε α : Type}

/-- A label of the program, or the arrival of a value. -/
inductive Move (ε α : Type) where
  | own (e : ε)
  | arrive (a : α)
  deriving DecidableEq, Repr

/-- Which labels take the value out, and which ones the register allows. -/
structure Port (ε α : Type) where
  takes : ε → Bool
  permits : Option α → ε → Bool

structure Line (σ α : Type) where
  program : σ
  held : Option α
  read : List α
  deriving DecidableEq, Repr

/-- The register side of a label of the program. -/
def take (P : Port ε α) (s : Line σ α) (e : ε) (p : σ) : Line σ α :=
  if P.takes e then ⟨p, none, s.read ++ s.held.toList⟩ else ⟨p, s.held, s.read⟩

def lineStep (P : Port ε α) (stp : σ → ε → Option σ) (s : Line σ α) :
    Move ε α → Option (Line σ α)
  | .arrive a => some ⟨s.program, some a, s.read⟩
  | .own e => if P.permits s.held e then (stp s.program e).map (take P s e) else none

theorem lineStep_own {P : Port ε α} {stp : σ → ε → Option σ} {s t : Line σ α} {e : ε}
    (h : lineStep P stp s (.own e) = some t) :
    P.permits s.held e = true ∧ ∃ p, stp s.program e = some p ∧ t = take P s e p := by
  simp only [lineStep, Option.ite_none_right_eq_some] at h
  obtain ⟨p, hp, ht⟩ := Option.map_eq_some_iff.mp h.2
  exact ⟨h.1, p, hp, ht.symm⟩

/-- The labels of the program among the moves. -/
def own (ms : List (Move ε α)) : List ε :=
  ms.filterMap fun
    | .own e => some e
    | .arrive _ => none

/-- The values that arrived, in order. -/
def arrivals (ms : List (Move ε α)) : List α :=
  ms.filterMap fun
    | .own _ => none
    | .arrive a => some a

@[simp] theorem own_nil : own ([] : List (Move ε α)) = [] := rfl
@[simp] theorem own_cons_own (e : ε) (ms : List (Move ε α)) :
    own (.own e :: ms) = e :: own ms := rfl
@[simp] theorem own_cons_arrive (a : α) (ms : List (Move ε α)) :
    own (.arrive a :: ms) = own ms := rfl
@[simp] theorem own_append (ms ns : List (Move ε α)) : own (ms ++ ns) = own ms ++ own ns :=
  List.filterMap_append
@[simp] theorem arrivals_append (ms ns : List (Move ε α)) :
    arrivals (ms ++ ns) = arrivals ms ++ arrivals ns := List.filterMap_append
@[simp] theorem arrivals_own (es : List ε) : arrivals (es.map .own : List (Move ε α)) = [] := by
  induction es with
  | nil => rfl
  | cons e es ih => exact ih

@[simp] theorem arrivals_nil : arrivals ([] : List (Move ε α)) = [] := rfl
@[simp] theorem arrivals_cons_own (e : ε) (ms : List (Move ε α)) :
    arrivals (.own e :: ms) = arrivals ms := rfl
@[simp] theorem arrivals_cons_arrive (a : α) (ms : List (Move ε α)) :
    arrivals (.arrive a :: ms) = a :: arrivals ms := rfl

/-- The program alone runs along its own labels. -/
theorem run_own {P : Port ε α} {stp : σ → ε → Option σ} {s t : Line σ α}
    {ms : List (Move ε α)} (h : run (lineStep P stp) s ms = some t) :
    run stp s.program (own ms) = some t.program := by
  have hlift : ∀ (s : Line σ α) m s', lineStep P stp s m = some s' →
      match (match m with | .own e => some e | .arrive _ => none : Option ε) with
      | none => s'.program = s.program
      | some e => stp s.program e = some s'.program := by
    intro s m s' hm
    cases m with
    | arrive a => cases hm; rfl
    | own e =>
      obtain ⟨-, p, hp, rfl⟩ := lineStep_own hm
      have hprog : (take P s e p).program = p := by unfold take; split <;> rfl
      rw [hprog]
      exact hp
  exact run_lift hlift h

/-- Programs with matching steps have matching lines. -/
theorem run_map {P : Port ε α} {stp : σ → ε → Option σ} {stp' : τ → ε → Option τ} (f : σ → τ)
    (hf : ∀ p e, stp' (f p) e = (stp p e).map f) (s : Line σ α) (ms : List (Move ε α)) :
    run (lineStep P stp') ⟨f s.program, s.held, s.read⟩ ms =
      (run (lineStep P stp) s ms).map fun t => ⟨f t.program, t.held, t.read⟩ := by
  induction ms generalizing s with
  | nil => rfl
  | cons m ms ih =>
    cases m with
    | arrive a => exact ih ⟨s.program, some a, s.read⟩
    | own e =>
      rw [run_cons, run_cons, lineStep, lineStep, hf]
      split
      · cases hp : stp s.program e with
        | none => rfl
        | some p =>
          have htake : take P ⟨f s.program, s.held, s.read⟩ e (f p) =
              ⟨f (take P s e p).program, (take P s e p).held, (take P s e p).read⟩ := by
            unfold take
            split <;> rfl
          simp only [Option.map_some, Option.bind_some, htake]
          exact ih _
      · rfl

/-- A program inside a larger one does what it does alone. -/
theorem run_embed {P : Port ε α} {stp : σ → ε → Option σ} {stp' : τ → ε → Option τ} (f : σ → τ)
    (hf : ∀ p e q, stp p e = some q → stp' (f p) e = some (f q)) {s t : Line σ α}
    {ms : List (Move ε α)} (h : run (lineStep P stp) s ms = some t) :
    run (lineStep P stp') ⟨f s.program, s.held, s.read⟩ ms =
      some ⟨f t.program, t.held, t.read⟩ := by
  induction ms generalizing s with
  | nil =>
    simp only [run_nil, Option.some.injEq] at h
    subst h
    rfl
  | cons m ms ih =>
    obtain ⟨u, hu, ht⟩ := Option.bind_eq_some_iff.mp h
    have hstep : lineStep P stp' ⟨f s.program, s.held, s.read⟩ m =
        some ⟨f u.program, u.held, u.read⟩ := by
      cases m with
      | arrive a => cases hu; rfl
      | own e =>
        obtain ⟨hpermit, p, hp, rfl⟩ := lineStep_own hu
        rw [lineStep, if_pos hpermit, hf _ _ _ hp]
        unfold take
        split <;> rfl
    rw [run_cons, hstep]
    exact ih ht

/-- A value is overwritten when the next one arrives before the register is read. -/
def overwritten (P : Port ε α) : List (Move ε α) → Bool
  | [] => false
  | .arrive _ :: _ => true
  | .own e :: ms => if P.takes e then false else overwritten P ms

/-- The arrivals that are not overwritten. -/
def kept (P : Port ε α) : List (Move ε α) → List α
  | [] => []
  | .own _ :: ms => kept P ms
  | .arrive a :: ms => if overwritten P ms then kept P ms else a :: kept P ms

/-- The arrivals that are overwritten. -/
def lost (P : Port ε α) : List (Move ε α) → List α
  | [] => []
  | .own _ :: ms => lost P ms
  | .arrive a :: ms => if overwritten P ms then a :: lost P ms else lost P ms

/-- A value that is already held counts as arriving first. -/
def since (held : Option α) (ms : List (Move ε α)) : List (Move ε α) :=
  held.toList.map .arrive ++ ms

@[simp] theorem since_none (ms : List (Move ε α)) : since none ms = ms := rfl
@[simp] theorem since_some (a : α) (ms : List (Move ε α)) :
    since (some a) ms = .arrive a :: ms := rfl

/-- The mailbox law: what was read and what is held are the arrivals, in order, except
those that were overwritten. -/
theorem run_kept {P : Port ε α} {stp : σ → ε → Option σ} {s t : Line σ α}
    {ms : List (Move ε α)} (h : run (lineStep P stp) s ms = some t) :
    t.read ++ t.held.toList = s.read ++ kept P (since s.held ms) := by
  induction ms generalizing s with
  | nil =>
    simp only [run_nil, Option.some.injEq] at h
    subst h
    cases hs : s.held <;> simp [kept, overwritten]
  | cons m ms ih =>
    obtain ⟨u, hu, ht⟩ := Option.bind_eq_some_iff.mp h
    rw [ih ht]
    cases m with
    | arrive a =>
      cases hu
      cases hs : s.held <;> simp [kept, overwritten]
    | own e =>
      obtain ⟨-, p, -, rfl⟩ := lineStep_own hu
      cases htake : P.takes e <;> cases hs : s.held <;>
        simp [take, htake, hs, kept, overwritten]

/-- Every arrival is either kept or lost. -/
theorem length_kept_lost (P : Port ε α) (ms : List (Move ε α)) :
    (kept P ms).length + (lost P ms).length = (arrivals ms).length := by
  induction ms with
  | nil => rfl
  | cons m ms ih =>
    cases m with
    | own e => exact ih
    | arrive a =>
      cases ho : overwritten P ms
      · simp only [kept, lost, ho, arrivals_cons_arrive, List.length_cons]
        simp only [Bool.false_eq_true, if_false, List.length_cons]
        omega
      · simp only [kept, lost, ho, if_true, arrivals_cons_arrive, List.length_cons]
        omega

theorem kept_sublist (P : Port ε α) (ms : List (Move ε α)) :
    (kept P ms).Sublist (arrivals ms) := by
  induction ms with
  | nil => exact .slnil
  | cons m ms ih =>
    cases m with
    | own e => exact ih
    | arrive a =>
      cases ho : overwritten P ms
      · simpa [kept, ho] using ih.cons_cons a
      · simpa [kept, ho] using ih.cons a

/-- Nothing is missing exactly when no arrival found the register occupied. -/
theorem kept_eq_arrivals_iff (P : Port ε α) (ms : List (Move ε α)) :
    kept P ms = arrivals ms ↔ lost P ms = [] := by
  have hlength := length_kept_lost P ms
  constructor
  · intro hkept
    have hzero : (lost P ms).length = 0 := by
      rw [hkept] at hlength
      omega
    exact List.length_eq_zero_iff.mp hzero
  · intro hlost
    apply (kept_sublist P ms).eq_of_length
    rw [hlost, List.length_nil] at hlength
    omega

/-- A run without loss has read, and still holds, everything that arrived. -/
theorem run_lossless {P : Port ε α} {stp : σ → ε → Option σ} {p : σ} {t : Line σ α}
    {ms : List (Move ε α)} (h : run (lineStep P stp) ⟨p, none, []⟩ ms = some t) :
    lost P ms = [] ↔ t.read ++ t.held.toList = arrivals ms := by
  rw [run_kept h, ← kept_eq_arrivals_iff]
  rfl

end Mailbox
