import Mathlib.Algebra.Group.Action.Defs
import Mathlib.Algebra.Order.BigOperators.Group.List
import Mathlib.Algebra.Order.Ring.Nat
import Mathlib.Data.List.Basic
import Mathlib.Data.List.Infix

/-!
# Serial lines

Words on one wire: a start bit, the data bits from the lowest on and a stop bit, each
for some clocks. A sampler that takes every level a fixed time after the last edge
reads a frame exactly, as long as no stretch of bits drifts too far from its pace.
-/
namespace SerialLine

variable {w : Nat}

def frameBits (b : BitVec w) : List Bool := false :: (List.range w).map b.getLsbD ++ [true]

@[simp] theorem length_frameBits (b : BitVec w) : (frameBits b).length = w + 2 := by
  simp [frameBits]

/-- Levels, each for some clocks. -/
def wave (segments : List (Bool × Nat)) : List Bool :=
  segments.flatMap fun s => List.replicate s.2 s.1

@[simp] theorem wave_nil : wave [] = [] := rfl
@[simp] theorem wave_cons (v : Bool) (n : Nat) (segments : List (Bool × Nat)) :
    wave ((v, n) :: segments) = List.replicate n v ++ wave segments := rfl
theorem wave_zip_append {vs us : List Bool} {ds es : List Nat} (h : vs.length = ds.length) :
    wave ((vs ++ us).zip (ds ++ es)) = wave (vs.zip ds) ++ wave (us.zip es) := by
  rw [List.zip_append h]
  exact List.flatMap_append

/-- A word with the clocks of each of its bits. -/
def frameWave (ds : List Nat) (b : BitVec w) : List Bool := wave ((frameBits b).zip ds)

/-- A line that rests high and sends words, in frames whose bit times are of one kind. -/
inductive Sends (ok : List Nat → Prop) : List Bool → List (BitVec w) → Prop where
  | rest : Sends ok [] []
  | idle {l : List Bool} {bs : List (BitVec w)} : Sends ok l bs → Sends ok (true :: l) bs
  | frame {ds : List Nat} {b : BitVec w} {l : List Bool} {bs : List (BitVec w)} :
      ds.length = w + 2 → ok ds → Sends ok l bs → Sends ok (frameWave ds b ++ l) (b :: bs)

theorem Sends.mono {ok ok' : List Nat → Prop}
    (hok : ∀ ds : List Nat, ds.length = w + 2 → ok ds → ok' ds)
    {l : List Bool} {bs : List (BitVec w)} (h : Sends ok l bs) : Sends ok' l bs := by
  induction h with
  | rest => exact .rest
  | idle _ ih => exact .idle ih
  | frame hlen hds _ ih => exact .frame hlen (hok _ hlen hds) ih

theorem Sends.append {ok : List Nat → Prop} {l m : List Bool} {bs cs : List (BitVec w)}
    (hl : Sends ok l bs) (hm : Sends ok m cs) : Sends ok (l ++ m) (bs ++ cs) := by
  induction hl with
  | rest => exact hm
  | idle _ ih => exact .idle ih
  | frame hlen hds _ ih =>
    rw [List.append_assoc]
    exact .frame hlen hds ih

/-! ## Sampling -/

/-- The clocks until the next sample, and the level at the clock before. -/
structure Sampler where
  phase : Nat
  level : Bool
  deriving DecidableEq, Repr

/-- A sampler with the period `T` that takes its first sample `c` clocks after an edge. -/
def Sampler.next (T c : Nat) (s : Sampler) (v : Bool) : Sampler :=
  ⟨if v ≠ s.level then c - 1 else if s.phase = 0 then T - 1 else s.phase - 1, v⟩

def Sampler.run (T c : Nat) (s : Sampler) (vs : List Bool) : Sampler :=
  vs.foldl (Sampler.next T c) s

/-- The levels taken. -/
def Sampler.samples (T c : Nat) : Sampler → List Bool → List Bool
  | _, [] => []
  | s, v :: vs => (if s.phase = 0 then [v] else []) ++ samples T c (s.next T c v) vs

variable {T c : Nat}

@[simp] theorem Sampler.run_nil (s : Sampler) : s.run T c [] = s := rfl
@[simp] theorem Sampler.run_cons (s : Sampler) (v : Bool) (vs : List Bool) :
    s.run T c (v :: vs) = (s.next T c v).run T c vs := rfl
theorem Sampler.run_append (s : Sampler) (vs ws : List Bool) :
    s.run T c (vs ++ ws) = (s.run T c vs).run T c ws := List.foldl_append

@[simp] theorem Sampler.samples_nil (s : Sampler) : s.samples T c [] = [] := rfl
theorem Sampler.samples_append (s : Sampler) (vs ws : List Bool) :
    s.samples T c (vs ++ ws) = s.samples T c vs ++ (s.run T c vs).samples T c ws := by
  induction vs generalizing s with
  | nil => rfl
  | cons v vs ih => simp [Sampler.samples, ih, List.append_assoc]

/-- A lower bound on the clocks until the next sample, whatever edges come before it. -/
def Sampler.lead (c : Nat) (s : Sampler) : Nat := min s.phase (c - 1)

theorem Sampler.lead_next (hc : c ≤ T) (s : Sampler) (v : Bool) :
    s.lead c ≤ (s.next T c v).lead c + 1 := by
  simp only [Sampler.lead, Sampler.next]
  split_ifs <;> omega

/-- After a sample or an edge the next sample is as far as from an edge. -/
theorem Sampler.lead_renewed (hc : c ≤ T) {s : Sampler} {v : Bool}
    (h : s.phase = 0 ∨ v ≠ s.level) : (s.next T c v).lead c = c - 1 := by
  simp only [Sampler.lead, Sampler.next]
  obtain h | h := h
  · rw [if_pos h]
    split_ifs <;> omega
  · rw [if_pos h, Nat.min_self]

/-- Before the next sample nothing is taken. -/
theorem steady_before {v : Bool} {n o : Nat} (h : n ≤ o) :
    Sampler.run T c ⟨o, v⟩ (List.replicate n v) = ⟨o - n, v⟩ ∧
      Sampler.samples T c ⟨o, v⟩ (List.replicate n v) = [] := by
  induction n generalizing o with
  | zero => exact ⟨rfl, rfl⟩
  | succ n ih =>
    have hne : o ≠ 0 := by omega
    have hnext : Sampler.next T c ⟨o, v⟩ v = ⟨o - 1, v⟩ := by simp [Sampler.next, hne]
    obtain ⟨hrun, hsamples⟩ := ih (o := o - 1) (by omega)
    have hleft : o - 1 - n = o - (n + 1) := by omega
    rw [List.replicate_succ, Sampler.run_cons, Sampler.samples, hnext, hrun, hsamples,
      if_neg hne, hleft]
    exact ⟨rfl, rfl⟩

/-- A level that lasts beyond the next sample, but not beyond the one after it, is taken once. -/
theorem steady_once {v : Bool} {n o : Nat} (hlow : o < n) (hhigh : n < o + T) :
    Sampler.run T c ⟨o, v⟩ (List.replicate n v) = ⟨o + T - n, v⟩ ∧
      Sampler.samples T c ⟨o, v⟩ (List.replicate n v) = [v] := by
  obtain ⟨m, rfl⟩ := Nat.exists_eq_add_of_lt hlow
  have hsplit : List.replicate (o + m + 1) v = List.replicate o v ++ v :: List.replicate m v := by
    rw [Nat.add_assoc, ← List.replicate_append_replicate, List.replicate_succ]
  obtain ⟨hrun, hsamples⟩ := steady_before (T := T) (c := c) (v := v) (Nat.le_refl o)
  have hnext : Sampler.next T c ⟨0, v⟩ v = ⟨T - 1, v⟩ := by simp [Sampler.next]
  obtain ⟨hrest, hnone⟩ := steady_before (T := T) (c := c) (v := v) (n := m) (o := T - 1)
    (by omega)
  have hleft : T - 1 - m = o + T - (o + m + 1) := by omega
  rw [hsplit, Sampler.run_append, Sampler.samples_append, hrun, hsamples, Nat.sub_self,
    Sampler.run_cons, Sampler.samples, hnext, hrest, hnone, hleft]
  exact ⟨rfl, rfl⟩

/-- A new level is taken once if it lasts long enough, and the old one is not taken again. -/
theorem edge_once {u v : Bool} {n o : Nat} (hedge : v ≠ u) (ho : o ≠ 0) (hc : 0 < c)
    (hlow : c < n) (hhigh : n < c + T) :
    Sampler.run T c ⟨o, u⟩ (List.replicate n v) = ⟨c + T - n, v⟩ ∧
      Sampler.samples T c ⟨o, u⟩ (List.replicate n v) = [v] := by
  obtain ⟨n, rfl⟩ : ∃ m, n = m + 1 := ⟨n - 1, by omega⟩
  have hnext : Sampler.next T c ⟨o, u⟩ v = ⟨c - 1, v⟩ := by simp [Sampler.next, hedge]
  obtain ⟨hrun, hsamples⟩ := steady_once (T := T) (c := c) (v := v) (n := n) (o := c - 1)
    (by omega) (by omega)
  have hleft : c - 1 + T - n = c + T - (n + 1) := by omega
  rw [List.replicate_succ, Sampler.run_cons, Sampler.samples, hnext, hrun, hsamples,
    if_neg ho, hleft]
  exact ⟨rfl, rfl⟩

/-- Where a level is taken that is taken once. -/
theorem samples_once {s : Sampler} {v : Bool} {d : Nat}
    (h : s.samples T c (List.replicate d v) = [v]) :
    ∃ m n, d = m + (n + 1) ∧ s.samples T c (List.replicate m v) = [] ∧
      (s.run T c (List.replicate m v)).phase = 0 := by
  induction d generalizing s with
  | zero => cases h
  | succ d ih =>
    by_cases hphase : s.phase = 0
    · exact ⟨0, d, by omega, rfl, hphase⟩
    · rw [List.replicate_succ, Sampler.samples, if_neg hphase] at h
      obtain ⟨m, n, hd, hsamples, hrun⟩ := ih h
      refine ⟨m + 1, n, by omega, ?_, ?_⟩
      · rw [List.replicate_succ, Sampler.samples, if_neg hphase, hsamples]
        rfl
      · rw [List.replicate_succ, Sampler.run_cons]
        exact hrun

/-- No stretch of consecutive bits is so short or so long that the pace of the sampler,
set by an edge at its start, gets out of step. -/
def InStep (T c : Nat) (ds : List Nat) : Prop :=
  ∀ l, l <:+: ds → l ≠ [] → c + (l.length - 1) * T < l.sum ∧ l.sum < c + l.length * T

/-- Frames of which no bit is short, and which are late by less than the centre in all. -/
theorem inStep_of_late {ds : List Nat} {e : Nat} (hlow : ∀ d ∈ ds, T ≤ d)
    (hsum : ds.sum ≤ ds.length * T + e) (hc : c < T) (he : e < c) : InStep T c ds := by
  rintro l ⟨front, back, rfl⟩ hne
  have hfront := List.card_nsmul_le_sum front T fun d hd => hlow d (by simp [hd])
  have hl := List.card_nsmul_le_sum l T fun d hd => hlow d (by simp [hd])
  have hback := List.card_nsmul_le_sum back T fun d hd => hlow d (by simp [hd])
  obtain ⟨n, hn⟩ := Nat.exists_eq_succ_of_ne_zero (List.length_pos_iff.mpr hne).ne'
  simp only [smul_eq_mul, List.sum_append, List.length_append, Nat.add_mul, hn,
    Nat.succ_eq_add_one, Nat.one_mul, Nat.add_sub_cancel] at hfront hl hback hsum ⊢
  omega

/-- Frames of which every bit time is near the period. -/
theorem inStep_of_near {ds : List Nat} {m δ : Nat} (hlen : ds.length ≤ m)
    (hnear : ∀ d ∈ ds, T ≤ d + δ ∧ d ≤ T + δ) (hearly : c + m * δ < T) (hlate : m * δ < c) :
    InStep T c ds := by
  intro l hl hne
  have hmem : ∀ d ∈ l, T - δ ≤ d ∧ d ≤ T + δ := fun d hd => by
    have := hnear d (hl.subset hd)
    omega
  have hlow := List.card_nsmul_le_sum l (T - δ) fun d hd => (hmem d hd).1
  have hhigh := List.sum_le_card_nsmul l (T + δ) fun d hd => (hmem d hd).2
  have hdrift : l.length * δ ≤ m * δ := Nat.mul_le_mul_right δ (hl.length_le.trans hlen)
  obtain ⟨n, hn⟩ := Nat.exists_eq_succ_of_ne_zero (List.length_pos_iff.mpr hne).ne'
  simp only [smul_eq_mul, Nat.mul_add, Nat.mul_sub, hn, Nat.succ_eq_add_one, Nat.add_mul,
    Nat.one_mul, Nat.add_sub_cancel] at hlow hhigh hdrift ⊢
  omega

/-- The sampler behind a stretch of equal bits that began with an edge. -/
def behind (T c : Nat) (stretch : List Nat) (v : Bool) : Sampler :=
  ⟨c + stretch.length * T - stretch.sum, v⟩

/-- One more bit, of the same or of the other level. -/
theorem sample_bit {stretch : List Nat} {d : Nat} {u v : Bool} (hne : stretch ≠ []) (hc : 0 < c)
    (hok : InStep T c (stretch ++ [d])) :
    (behind T c stretch u).run T c (List.replicate d v) =
        behind T c (if v = u then stretch ++ [d] else [d]) v ∧
      (behind T c stretch u).samples T c (List.replicate d v) = [v] := by
  obtain ⟨-, hold⟩ := hok stretch (List.infix_append' [] stretch [d]) hne
  obtain ⟨hlow, hhigh⟩ := hok (stretch ++ [d]) (List.infix_refl _) (by simp)
  obtain ⟨hshort, hlong⟩ := hok [d] ⟨stretch, [], by simp⟩ (by simp)
  simp only [List.length_append, List.length_singleton, List.sum_append, List.sum_singleton,
    Nat.add_sub_cancel, Nat.sub_self, Nat.zero_mul, Nat.add_zero, Nat.one_mul, Nat.add_mul]
    at hlow hhigh hshort hlong
  by_cases hv : v = u
  · subst hv
    obtain ⟨hrun, hsamples⟩ := steady_once (T := T) (c := c) (v := v) (n := d)
      (o := c + stretch.length * T - stretch.sum) (by omega) (by omega)
    refine ⟨?_, hsamples⟩
    rw [behind, hrun, if_pos rfl, behind, Sampler.mk.injEq]
    simp only [List.length_append, List.length_singleton, List.sum_append, List.sum_singleton,
      Nat.add_mul, Nat.one_mul, and_true]
    omega
  · obtain ⟨hrun, hsamples⟩ := edge_once (T := T) (c := c) (n := d)
      (o := c + stretch.length * T - stretch.sum) hv (by omega) hc hshort hlong
    refine ⟨?_, hsamples⟩
    rw [behind, hrun, if_neg hv, behind, Sampler.mk.injEq]
    simp

/-- Every bit of a wave that stays in step is taken exactly once. -/
theorem sample_wave {stretch ds : List Nat} {u : Bool} {vs : List Bool} (hne : stretch ≠ [])
    (hc : 0 < c) (hok : InStep T c (stretch ++ ds)) (hlen : vs.length = ds.length) :
    (behind T c stretch u).samples T c (wave (vs.zip ds)) = vs ∧
      ∃ last, last ≠ [] ∧ last <:+ stretch ++ ds ∧
        (behind T c stretch u).run T c (wave (vs.zip ds)) =
          behind T c last ((u :: vs).getLast (by simp)) := by
  induction vs generalizing stretch ds u with
  | nil =>
    have hnil : ds = [] := List.eq_nil_of_length_eq_zero hlen.symm
    exact ⟨rfl, stretch, hne, by simp [hnil], rfl⟩
  | cons v vs ih =>
    obtain ⟨d, ds, rfl⟩ : ∃ d ds', ds = d :: ds' := by
      cases ds with
      | nil => simp at hlen
      | cons d ds => exact ⟨d, ds, rfl⟩
    have hsplit : stretch ++ d :: ds = (stretch ++ [d]) ++ ds := by simp
    rw [hsplit] at hok
    have hfirst : InStep T c (stretch ++ [d]) := fun l hl =>
      hok l (hl.trans (List.infix_append' [] (stretch ++ [d]) ds))
    obtain ⟨hrun, hsamples⟩ := sample_bit (u := u) (v := v) hne hc hfirst
    have hlen' : vs.length = ds.length := by simpa using hlen
    have hgo : ∃ next, next ≠ [] ∧ next ++ ds <:+ (stretch ++ [d]) ++ ds ∧
        (behind T c stretch u).run T c (List.replicate d v) = behind T c next v := by
      by_cases hv : v = u
      · exact ⟨stretch ++ [d], by simp, List.suffix_refl _, by rw [hrun, if_pos hv]⟩
      · exact ⟨[d], by simp, ⟨stretch, by simp⟩, by rw [hrun, if_neg hv]⟩
    obtain ⟨next, hnext, hin, hstep⟩ := hgo
    obtain ⟨hrest, last, hlast, hlastin, hend⟩ :=
      @ih next ds v hnext (fun l hl => hok l (hl.trans hin.isInfix)) hlen'
    rw [List.zip_cons_cons, wave_cons, Sampler.samples_append, Sampler.run_append, hsamples,
      hstep, hrest]
    refine ⟨rfl, last, hlast, ?_, ?_⟩
    · rw [hsplit]
      exact hlastin.trans hin
    · rw [hend]
      simp

end SerialLine
