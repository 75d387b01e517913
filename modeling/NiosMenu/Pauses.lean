import Mathlib.Data.List.Forall2

/-!
# Visible events and the pauses between them

Two traces of visible events and pauses with the same events, where one has more
pauses: event by event, the time since the previous event is at least as long there.
-/
namespace Pauses

variable {υ : Type}

inductive Mark (υ : Type) where
  | event (u : υ)
  | pause (us : Nat)
  deriving DecidableEq, Repr

/-- The visible events of a trace. -/
def visible (l : List (Mark υ)) : List υ :=
  l.filterMap fun
    | .event u => some u
    | .pause _ => none

@[simp] theorem visible_nil : visible ([] : List (Mark υ)) = [] := rfl
@[simp] theorem visible_event (u : υ) (l : List (Mark υ)) :
    visible (.event u :: l) = u :: visible l := rfl
@[simp] theorem visible_pause (us : Nat) (l : List (Mark υ)) :
    visible (.pause us :: l) = visible l := rfl
theorem visible_append (l m : List (Mark υ)) : visible (l ++ m) = visible l ++ visible m :=
  List.filterMap_append

/-- Each event with the time since the previous one; `t` has passed already. -/
def gaps : Nat → List (Mark υ) → List (Nat × υ)
  | _, [] => []
  | t, .pause us :: l => gaps (t + us) l
  | t, .event u :: l => (t, u) :: gaps 0 l

theorem gaps_visible (t : Nat) (l : List (Mark υ)) : (gaps t l).map Prod.snd = visible l := by
  induction l generalizing t with
  | nil => rfl
  | cons x l ih =>
    cases x with
    | event u => exact congrArg (u :: ·) (ih 0)
    | pause us => exact ih (t + us)

theorem gaps_prefix (t : Nat) (l m : List (Mark υ)) : gaps t l <+: gaps t (l ++ m) := by
  induction l generalizing t with
  | nil => exact List.nil_prefix
  | cons x l ih =>
    cases x with
    | event u => exact (List.prefix_cons_inj (t, u)).mpr (ih 0)
    | pause us => exact ih (t + us)

/-- The first trace has the events of the second one and possibly more pauses. -/
structure Slower (l m : List (Mark υ)) : Prop where
  pauses : m.Sublist l
  events : visible l = visible m

theorem slower_refl (l : List (Mark υ)) : Slower l l := ⟨List.Sublist.refl l, rfl⟩

theorem slower_append {l l' m m' : List (Mark υ)} (h : Slower l m) (h' : Slower l' m') :
    Slower (l ++ l') (m ++ m') :=
  ⟨h.pauses.append h'.pauses, by rw [visible_append, visible_append, h.events, h'.events]⟩

theorem visible_sublist {l m : List (Mark υ)} (h : m.Sublist l) :
    (visible m).Sublist (visible l) := h.filterMap _

/-- Every gap of the slower trace is at least as long. -/
theorem slower_gaps {l m : List (Mark υ)} (h : Slower l m) {t u : Nat} (htu : u ≤ t) :
    List.Forall₂ (fun a b => a.2 = b.2 ∧ b.1 ≤ a.1) (gaps t l) (gaps u m) := by
  obtain ⟨hsub, hevents⟩ := h
  induction hsub generalizing t u with
  | slnil => exact .nil
  | @cons m l x hsub ih =>
    cases x with
    | event v =>
      -- a sublist cannot have lost a visible event
      have hlength := (visible_sublist hsub).length_le
      have hlonger := congrArg List.length hevents
      rw [visible_event, List.length_cons] at hlonger
      omega
    | pause us => exact ih (by omega) hevents
  | @cons_cons m l x hsub ih =>
    cases x with
    | event v =>
      have hrest : visible l = visible m := (List.cons.inj hevents).2
      exact .cons ⟨rfl, htu⟩ (ih (Nat.le_refl 0) hrest)
    | pause us => exact ih (by omega) hevents

/-- The beginning of a slower trace: the first events of the other one, with no shorter gap. -/
theorem slower_front {l r m : List (Mark υ)} (h : Slower (l ++ r) m) :
    visible l <+: visible m ∧ List.Forall₂ (fun a b => a.2 = b.2 ∧ b.1 ≤ a.1) (gaps 0 l)
      ((gaps 0 m).take (visible l).length) := by
  constructor
  · rw [← h.events, visible_append]
    exact List.prefix_append _ _
  · obtain ⟨more, hmore⟩ := gaps_prefix 0 l r
    have hlength : (visible l).length = (gaps 0 l).length := by
      rw [← gaps_visible 0, List.length_map]
    have htake := List.forall₂_take (visible l).length (slower_gaps h (Nat.le_refl 0))
    rw [← hmore, hlength, List.take_left] at htake
    rw [hlength]
    exact htake

end Pauses
