import Mathlib.Data.List.Basic

/-!
# Writers and readers of byte streams

A reader takes a value from the front of a stream and leaves the rest. It inverts a
writer if it takes back what was written, whatever stands behind it; inverting readers
may be put one behind the other, and repeated until the stream ends.
-/
namespace Codec

variable {α β γ : Type}

abbrev Reader (β α : Type) := List β → Option (α × List β)

def Inverts (ok : α → Prop) (write : α → List β) (read : Reader β α) : Prop :=
  ∀ a rest, ok a → read (write a ++ rest) = some (a, rest)

/-- Read a value and then one whose format may depend on it. -/
def Reader.andThen (read : Reader β α) (next : α → Reader β γ) : Reader β γ := fun bs =>
  (read bs).bind fun r => next r.1 r.2

theorem Inverts.andThen {ok : α → Prop} {write : α → List β} {read : Reader β α}
    (h : Inverts ok write read) {a : α} (ha : ok a) (next : α → Reader β γ) (rest : List β) :
    read.andThen next (write a ++ rest) = next a rest := by
  rw [Reader.andThen, h a rest ha, Option.bind_some]

/-- A fixed number of symbols. -/
def take (n : Nat) : Reader β (List β) := fun bs =>
  if n ≤ bs.length then some (bs.take n, bs.drop n) else none

theorem take_inverts (n : Nat) : Inverts (fun l : List β => l.length = n) id (take n) := by
  rintro l rest rfl
  simp [take]

/-- One given symbol after the other. -/
def expect [DecidableEq β] (l : List β) : Reader β Unit := fun bs =>
  if l.isPrefixOf bs then some ((), bs.drop l.length) else none

theorem expect_inverts [DecidableEq β] (l : List β) :
    Inverts (fun _ => True) (fun _ => l) (expect l) := by
  intro a rest _
  simp [expect]

/-! ## Whole streams -/

def many (read : Reader β α) : Nat → List β → Option (List α)
  | _, [] => some []
  | 0, _ :: _ => none
  | n + 1, b :: bs => (read (b :: bs)).bind fun r => (many read n r.2).map (r.1 :: ·)

/-- The values of a stream that ends behind the last one of them. -/
def all (read : Reader β α) (bs : List β) : Option (List α) := many read bs.length bs

theorem many_flatMap {ok : α → Prop} {write : α → List β} {read : Reader β α}
    (h : Inverts ok write read) (hwrite : ∀ a, write a ≠ []) {as : List α}
    (has : ∀ a ∈ as, ok a) {n : Nat} (hn : as.length ≤ n) :
    many read n (as.flatMap write) = some as := by
  induction as generalizing n with
  | nil => cases n <;> rfl
  | cons a as ih =>
    obtain ⟨n, rfl⟩ := Nat.exists_eq_add_of_lt (Nat.lt_of_lt_of_le (Nat.zero_lt_succ _) hn)
    obtain ⟨b, bs, hb⟩ := List.exists_cons_of_ne_nil (hwrite a)
    have hfirst := h a (as.flatMap write) (has a (by simp))
    have hrest := ih (fun c hc => has c (by simp [hc])) (n := n) (by simpa using hn)
    rw [List.flatMap_cons]
    rw [hb, List.cons_append] at hfirst ⊢
    rw [Nat.zero_add, many, hfirst, Option.bind_some, hrest]
    rfl

theorem length_le_flatMap {write : α → List β} (hwrite : ∀ a, write a ≠ []) (as : List α) :
    as.length ≤ (as.flatMap write).length := by
  induction as with
  | nil => exact Nat.le_refl 0
  | cons a as ih =>
    have hpos := List.length_pos_iff.mpr (hwrite a)
    rw [List.flatMap_cons, List.length_append, List.length_cons]
    omega

/-- A stream of written values is read back. -/
theorem all_flatMap {ok : α → Prop} {write : α → List β} {read : Reader β α}
    (h : Inverts ok write read) (hwrite : ∀ a, write a ≠ []) {as : List α}
    (has : ∀ a ∈ as, ok a) : all read (as.flatMap write) = some as :=
  many_flatMap h hwrite has (length_le_flatMap hwrite as)

end Codec
