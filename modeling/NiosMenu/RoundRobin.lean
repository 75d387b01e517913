import Mathlib.Data.Nat.Find
import Mathlib.Data.List.Basic

/-!
# Taking turns

Some requesters stand in a circle. A round serves the first one that asks, counted from
the pointer on, and moves the pointer behind it, so that nobody is passed over by the
same neighbour twice.
-/
namespace RoundRobin

variable {n p i j : Nat} {asks : Nat → Bool}

/-- The steps from `p` to `i` around a circle of `n` places. -/
def distance (n p i : Nat) : Nat := if p ≤ i then i - p else i + n - p

theorem distance_ahead (n : Nat) (h : p ≤ i) : distance n p i = i - p := if_pos h

theorem distance_behind (n : Nat) (h : i < p) : distance n p i = i + n - p :=
  if_neg (Nat.not_le.mpr h)

theorem distance_lt (hp : p < n) (hi : i < n) : distance n p i < n := by
  unfold distance
  split <;> omega

theorem distance_injective (hp : p < n) (hi : i < n) (hj : j < n)
    (h : distance n p i = distance n p j) : i = j := by
  unfold distance at h
  split at h <;> split at h <;> omega

/-- The place behind `i`. -/
def next (n i : Nat) : Nat := if i + 1 = n then 0 else i + 1

theorem next_lt (hi : i < n) : next n i < n := by
  unfold next
  split <;> omega

/-- Behind the pointer's new place everybody who was further away than it has come closer. -/
theorem distance_next (hp : p < n) (hi : i < n) (hj : j < n)
    (h : distance n p j < distance n p i) : distance n (next n j) i < distance n p i := by
  unfold distance next at *
  split at h <;> split at h <;> split <;> split <;> omega

/-- The one that a round from `p` serves. -/
structure Winner (n : Nat) (asks : Nat → Bool) (p i : Nat) : Prop where
  inside : i < n
  asking : asks i = true
  first : ∀ j < n, distance n p j < distance n p i → asks j = false

theorem Winner.before (h : Winner n asks p j) (hp : p < n) (hi : i < n) (hasks : asks i = true)
    (hne : j ≠ i) : distance n p j < distance n p i := by
  obtain hlt | heq | hgt := Nat.lt_trichotomy (distance n p j) (distance n p i)
  · exact hlt
  · exact absurd (distance_injective hp h.inside hi heq) hne
  · have hnone := h.first i hi hgt
    rw [hasks] at hnone
    cases hnone

theorem Winner.unique (hp : p < n) (hi : Winner n asks p i) (hj : Winner n asks p j) : i = j := by
  by_contra hne
  have hij := hi.before hp hj.inside hj.asking hne
  have hji := hj.before hp hi.inside hi.asking (Ne.symm hne)
  omega

theorem winner_ahead (hi : i < n) (hpi : p ≤ i) :
    Winner n asks p i ↔ asks i = true ∧ ∀ j, p ≤ j → j < i → asks j = false := by
  constructor
  · intro h
    refine ⟨h.asking, fun j hpj hji => h.first j (by omega) ?_⟩
    rw [distance_ahead n hpj, distance_ahead n hpi]
    omega
  · rintro ⟨hown, hfirst⟩
    refine ⟨hi, hown, fun j hj hcloser => ?_⟩
    rw [distance_ahead n hpi] at hcloser
    by_cases hpj : p ≤ j
    · rw [distance_ahead n hpj] at hcloser
      exact hfirst j hpj (by omega)
    · rw [distance_behind n (by omega)] at hcloser
      omega

theorem winner_behind (hp : p < n) (hip : i < p) :
    Winner n asks p i ↔ asks i = true ∧ (∀ j, p ≤ j → j < n → asks j = false) ∧
      ∀ j, j < i → asks j = false := by
  constructor
  · intro h
    refine ⟨h.asking, fun j hpj hj => h.first j hj ?_, fun j hji => h.first j (by omega) ?_⟩
    · rw [distance_ahead n hpj, distance_behind n hip]
      omega
    · rw [distance_behind n (by omega), distance_behind n hip]
      omega
  · rintro ⟨hown, hrest, hfirst⟩
    refine ⟨by omega, hown, fun j hj hcloser => ?_⟩
    rw [distance_behind n hip] at hcloser
    by_cases hpj : p ≤ j
    · exact hrest j hpj hj
    · rw [distance_behind n (by omega)] at hcloser
      exact hfirst j (by omega)

/-- There is one as soon as somebody asks. -/
theorem winner_exists (hj : j < n) (hasks : asks j = true) (p : Nat) : ∃ i, Winner n asks p i := by
  have hsome : ∃ d, ∃ i < n, asks i = true ∧ distance n p i = d := ⟨_, j, hj, hasks, rfl⟩
  obtain ⟨i, hi, hown, hleast⟩ := Nat.find_spec hsome
  refine ⟨i, hi, hown, fun k hk hcloser => ?_⟩
  rw [hleast] at hcloser
  by_contra hk'
  exact Nat.find_min hsome hcloser ⟨k, hk, by simpa using hk', rfl⟩

/-- Rounds one behind the other, each with its requests and the winner. -/
inductive Rounds (n : Nat) (asks : ρ → Nat → Bool) : Nat → List (ρ × Nat) → Prop where
  | done (p : Nat) : Rounds n asks p []
  | round {p i : Nat} {r : ρ} {l : List (ρ × Nat)} :
      Winner n (asks r) p i → Rounds n asks (next n i) l → Rounds n asks p ((r, i) :: l)

variable {ρ : Type} {asks : ρ → Nat → Bool} {l : List (ρ × Nat)}

theorem Rounds.drop {early late : List (ρ × Nat)} (h : Rounds n asks p (early ++ late))
    (hp : p < n) : ∃ q < n, Rounds n asks q late := by
  induction early generalizing p with
  | nil => exact ⟨p, hp, h⟩
  | cons d early ih =>
    cases h with
    | round hwinner hrest => exact ih hrest (next_lt hwinner.inside)

theorem Rounds.take {early late : List (ρ × Nat)} (h : Rounds n asks p (early ++ late)) :
    Rounds n asks p early := by
  induction early generalizing p with
  | nil => exact .done p
  | cons d early ih =>
    cases h with
    | round hwinner hrest => exact .round hwinner (ih hrest)

theorem Rounds.winners (h : Rounds n asks p l) : ∀ d ∈ l, d.2 < n ∧ asks d.1 d.2 = true := by
  induction h with
  | done p => simp
  | round hwinner _ ih => exact List.forall_mem_cons.mpr ⟨⟨hwinner.inside, hwinner.asking⟩, ih⟩

/-- Who asks in every round is served after as many rounds as it stands away. -/
theorem Rounds.served (h : Rounds n asks p l) (hp : p < n) (hi : i < n)
    (hasks : ∀ d ∈ l, asks d.1 i = true) (hlong : distance n p i < l.length) :
    ∃ d ∈ l, d.2 = i := by
  induction h with
  | done p => cases hlong
  | @round p j r l hwinner _ ih =>
    obtain ⟨hasking, hlater⟩ := List.forall_mem_cons.mp hasks
    by_cases hj : j = i
    · exact ⟨(r, j), by simp, hj⟩
    · have hcloser := hwinner.before hp hi hasking hj
      have hstep := distance_next hp hi hwinner.inside hcloser
      rw [List.length_cons] at hlong
      obtain ⟨d, hd, hdi⟩ := ih (next_lt hwinner.inside) hlater (by omega)
      exact ⟨d, by simp [hd], hdi⟩

end RoundRobin
