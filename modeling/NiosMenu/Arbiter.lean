import NiosMenu.RoundRobin

/-!
# The arbiter of the interconnect

`altera_merlin_arbitrator` for any number of requesters. The sum of the inverted requests
and the priority, taken twice over, leaves the first request from the priority on; a
rotation of the grant then makes the arbiter take turns.
-/
namespace Arbiter

open RoundRobin

variable {n w : Nat}

/-! ## The adder -/

/-- The carry behind full adder number `i`. -/
def cout (a b : BitVec w) : Nat → Bool
  | 0 => a.getLsbD 0 && b.getLsbD 0
  | i + 1 => (a.getLsbD (i + 1) && b.getLsbD (i + 1)) ||
      (cout a b i && (a.getLsbD (i + 1) ^^ b.getLsbD (i + 1)))

def sum (a b : BitVec w) : Nat → Bool
  | 0 => a.getLsbD 0 ^^ b.getLsbD 0
  | i + 1 => (a.getLsbD (i + 1) ^^ b.getLsbD (i + 1)) ^^ cout a b i

def fullAdder (a b : BitVec w) : BitVec w :=
  (BitVec.ofBoolListLE ((List.range w).map (sum a b))).cast (by simp)

def carryChain (a b : BitVec w) : BitVec w :=
  (a.setWidth (w + 1) + b.setWidth (w + 1)).setWidth w

def adder (a b : BitVec w) : BitVec w := if w ≤ 8 then fullAdder a b else carryChain a b

theorem cout_carry (a b : BitVec w) (i : Nat) : cout a b i = BitVec.carry (i + 1) a b false := by
  induction i with
  | zero => simp [cout, BitVec.carry_succ, Bool.atLeastTwo]
  | succ i ih =>
    rw [cout, ih, BitVec.carry_succ (i + 1), Bool.atLeastTwo]
    cases a.getLsbD (i + 1) <;> cases b.getLsbD (i + 1) <;> simp

theorem fullAdder_eq (a b : BitVec w) : fullAdder a b = a + b := by
  apply BitVec.eq_of_getLsbD_eq
  intro i hi
  rw [fullAdder, BitVec.getLsbD_cast, BitVec.getLsbD_ofBoolListLE, BitVec.getLsbD_add hi]
  cases i with
  | zero => simp [sum, hi]
  | succ i => simp [sum, hi, cout_carry]

theorem adder_eq (a b : BitVec w) : adder a b = a + b := by
  unfold adder carryChain
  split
  · exact fullAdder_eq a b
  · rw [BitVec.setWidth_add _ _ (by omega)]
    simp [BitVec.setWidth_setWidth_of_le]

/-! ## The first set bit -/

/-- Adding a single bit carries through the ones above it. -/
theorem carry_twoPow (a : BitVec w) {p : Nat} (hp : p < w) (k : Nat) :
    BitVec.carry k a (BitVec.twoPow w p) false = true ↔
      p < k ∧ ∀ j, p ≤ j → j < k → a.getLsbD j = true := by
  induction k with
  | zero => simp
  | succ k ih =>
    rw [BitVec.carry_succ, BitVec.getLsbD_twoPow]
    by_cases hk : p = k
    · subst hk
      have hnone : BitVec.carry p a (BitVec.twoPow w p) false = false := by
        rw [← Bool.not_eq_true, ih]
        omega
      rw [hnone]
      simp only [hp, decide_true, Bool.and_true, Bool.atLeastTwo_true_mid, Bool.or_false]
      refine ⟨fun h => ⟨by omega, fun j hj hjk => ?_⟩, fun h => h.2 p (by omega) (by omega)⟩
      rwa [show j = p by omega]
    · simp only [hk, decide_false, Bool.and_false, Bool.atLeastTwo_false_mid, Bool.and_eq_true, ih]
      refine ⟨fun h => ⟨by omega, fun j hj hjk => ?_⟩, fun h => ⟨h.2 k (by omega) (by omega),
        by omega, fun j hj hjk => h.2 j hj (by omega)⟩⟩
      obtain rfl | hlt := Nat.eq_or_lt_of_le (Nat.le_of_lt_succ hjk)
      · exact h.1
      · exact h.2.2 j hj hlt

/-- Only the first one from place `p` on is left. -/
theorem first_bit (x : BitVec w) {p k : Nat} (hp : p < w) :
    (x &&& (~~~x + BitVec.twoPow w p)).getLsbD k = true ↔
      p ≤ k ∧ x.getLsbD k = true ∧ ∀ j, p ≤ j → j < k → x.getLsbD j = false := by
  by_cases hx : x.getLsbD k = true
  · have hk : k < w := BitVec.lt_of_getLsbD hx
    have hones : (∀ j, p ≤ j → j < k → (~~~x).getLsbD j = true) ↔
        ∀ j, p ≤ j → j < k → x.getLsbD j = false := by
      refine forall_congr' fun j => forall_congr' fun _ => forall_congr' fun hj => ?_
      simp [show j < w by omega]
    have hcarry := carry_twoPow (~~~x) hp k
    rw [hones] at hcarry
    rw [BitVec.getLsbD_and, BitVec.getLsbD_add hk, BitVec.getLsbD_not, BitVec.getLsbD_twoPow]
    by_cases hpk : p = k
    · subst hpk
      have hnone : BitVec.carry p (~~~x) (BitVec.twoPow w p) false = false := by
        rw [← Bool.not_eq_true, hcarry]
        omega
      rw [hnone]
      simp only [hx, hp, decide_true, Bool.and_true, Bool.not_true, Bool.true_and,
        Bool.false_xor, Bool.xor_false, le_refl, true_and, true_iff]
      intro j hj hjp
      omega
    · simp only [hx, hk, hpk, decide_true, decide_false, Bool.and_false, Bool.not_true,
        Bool.true_and, Bool.false_xor, hcarry, true_and]
      exact ⟨fun h => ⟨by omega, h.2⟩, fun h => ⟨by omega, h.2⟩⟩
  · simp [hx]

/-! ## The grant -/

inductive Scheme where
  | roundRobin
  | fixedPriority
  | noArb
  deriving DecidableEq, Repr

structure State (n : Nat) where
  topPriorityReg : BitVec n
  deriving DecidableEq, Repr

def reset (n : Nat) : State n := ⟨1#n⟩

def State.topPriority (s : State n) (scheme : Scheme) : BitVec n :=
  if scheme = .roundRobin ∧ 1 < n then s.topPriorityReg else 1#n

def State.grant (s : State n) (scheme : Scheme) (request : BitVec n) : BitVec n :=
  let result := adder (~~~request ++ ~~~request) (0#n ++ s.topPriority scheme)
  let grantDoubleVector := (request ++ request) &&& result
  if scheme = .noArb then request
  else grantDoubleVector.extractLsb' 0 n ||| grantDoubleVector.extractLsb' n n

def State.step (s : State n) (scheme : Scheme) (pipeline : Bool) (request : BitVec n)
    (incrementTopPriority saveTopPriority : Bool) : State n :=
  if pipeline then
    if incrementTopPriority then
      if request ≠ 0 then ⟨(s.grant scheme request).rotateLeft 1⟩ else s
    else s
  else
    if incrementTopPriority then
      if request ≠ 0 then ⟨(s.grant scheme request).rotateLeft 1⟩
      else ⟨s.topPriorityReg.rotateLeft 1⟩
    else if saveTopPriority then ⟨s.grant scheme request⟩
    else s

theorem double_priority (p : Nat) (hp : p < n) :
    0#n ++ BitVec.twoPow n p = BitVec.twoPow (n + n) p := by
  apply BitVec.eq_of_getLsbD_eq
  intro k hk
  rw [BitVec.getLsbD_append, BitVec.getLsbD_twoPow, BitVec.getLsbD_twoPow]
  by_cases hkn : k < n
  · simp [hkn, hp, show p < n + n by omega]
  · simp [hkn, show p ≠ k by omega]

theorem getLsbD_grant {p : Nat} (hp : p < n) (hmany : 1 < n) (r : BitVec n) (i : Nat) :
    (State.grant ⟨BitVec.twoPow n p⟩ .roundRobin r).getLsbD i =
      (decide (i < n) &&
        (((r ++ r) &&& (~~~(r ++ r) + BitVec.twoPow (n + n) p)).getLsbD i ||
          ((r ++ r) &&& (~~~(r ++ r) + BitVec.twoPow (n + n) p)).getLsbD (n + i))) := by
  have htop : State.topPriority ⟨BitVec.twoPow n p⟩ .roundRobin = BitVec.twoPow n p :=
    if_pos ⟨rfl, hmany⟩
  simp only [State.grant, htop, adder_eq, double_priority p hp, ← BitVec.not_append, reduceCtorEq,
    if_false, BitVec.getLsbD_or, BitVec.getLsbD_extractLsb', Nat.zero_add]
  rw [Bool.and_or_distrib_left]

/-- The arbiter serves the first requester from the priority on. -/
theorem grant_iff {p : Nat} (hp : p < n) (hmany : 1 < n) (r : BitVec n) (i : Nat) :
    (State.grant ⟨BitVec.twoPow n p⟩ .roundRobin r).getLsbD i = true ↔
      Winner n r.getLsbD p i := by
  have hdouble : ∀ k, (r ++ r).getLsbD k = if k < n then r.getLsbD k else r.getLsbD (k - n) :=
    fun k => BitVec.getLsbD_append
  rw [getLsbD_grant hp hmany, Bool.and_eq_true, Bool.or_eq_true, first_bit _ (by omega),
    first_bit _ (by omega), decide_eq_true_eq]
  by_cases hi : i < n
  · by_cases hpi : p ≤ i
    · rw [winner_ahead hi hpi, hdouble, hdouble, if_pos hi, if_neg (by omega),
        Nat.add_sub_cancel_left]
      constructor
      · rintro ⟨-, ⟨-, hown, hfirst⟩ | ⟨-, hown, hfirst⟩⟩
        · refine ⟨hown, fun j hpj hji => ?_⟩
          have hnone := hfirst j hpj hji
          rwa [hdouble, if_pos (by omega)] at hnone
        · have hnone := hfirst i hpi (by omega)
          rw [hdouble, if_pos hi, hown] at hnone
          cases hnone
      · rintro ⟨hown, hfirst⟩
        refine ⟨hi, .inl ⟨hpi, hown, fun j hpj hji => ?_⟩⟩
        rw [hdouble, if_pos (by omega)]
        exact hfirst j hpj hji
    · rw [winner_behind hp (by omega), hdouble, hdouble, if_pos hi, if_neg (by omega),
        Nat.add_sub_cancel_left]
      constructor
      · rintro ⟨-, ⟨hnot, -, -⟩ | ⟨-, hown, hfirst⟩⟩
        · exact absurd hnot hpi
        · refine ⟨hown, fun j hpj hj => ?_, fun j hji => ?_⟩
          · have hnone := hfirst j hpj (by omega)
            rwa [hdouble, if_pos hj] at hnone
          · have hnone := hfirst (n + j) (by omega) (by omega)
            rwa [hdouble, if_neg (by omega), Nat.add_sub_cancel_left] at hnone
      · rintro ⟨hown, hrest, hfirst⟩
        refine ⟨hi, .inr ⟨by omega, hown, fun j hpj hji => ?_⟩⟩
        rw [hdouble]
        by_cases hj : j < n
        · rw [if_pos hj]
          exact hrest j hpj hj
        · rw [if_neg hj]
          exact hfirst (j - n) (by omega)
  · exact ⟨fun h => absurd h.1 hi, fun h => absurd h.inside hi⟩

/-- A single grant, or none if nobody asks. -/
theorem grant_winner {p : Nat} (hp : p < n) (hmany : 1 < n) {r : BitVec n} (hr : r ≠ 0) :
    ∃ i, Winner n r.getLsbD p i ∧
      State.grant ⟨BitVec.twoPow n p⟩ .roundRobin r = BitVec.twoPow n i := by
  obtain ⟨j, hj⟩ : ∃ j, r.getLsbD j = true := by
    by_contra hnone
    apply hr
    apply BitVec.eq_of_getLsbD_eq
    intro j _
    simpa using not_exists.mp hnone j
  obtain ⟨i, hi⟩ := winner_exists (BitVec.lt_of_getLsbD hj) hj p
  refine ⟨i, hi, BitVec.eq_of_getLsbD_eq fun k _ => ?_⟩
  rw [Bool.eq_iff_iff, grant_iff hp hmany, BitVec.getLsbD_twoPow]
  simp only [hi.inside, decide_true, Bool.true_and, decide_eq_true_eq]
  exact ⟨fun hk => hi.unique hp hk, fun hk => hk ▸ hi⟩

theorem grant_zero (s : State n) (scheme : Scheme) : s.grant scheme 0 = 0 := by
  apply BitVec.eq_of_getLsbD_eq
  intro k _
  cases scheme <;> simp [State.grant]

theorem rotate_twoPow {i : Nat} (hi : i < n) (hmany : 1 < n) :
    (BitVec.twoPow n i).rotateLeft 1 = BitVec.twoPow n (next n i) := by
  have hnext := next_lt hi
  apply BitVec.eq_of_getLsbD_eq
  intro k hk
  rw [BitVec.getLsbD_rotateLeft_of_le hmany, BitVec.getLsbD_twoPow, BitVec.getLsbD_twoPow,
    BitVec.getLsbD_twoPow]
  simp only [hi, hk, hnext, decide_true, Bool.true_and, Bool.cond_decide]
  unfold next
  split <;> split <;> rw [decide_eq_decide] <;> omega

/-! ## Runs -/

theorem reset_twoPow (n : Nat) : reset n = ⟨BitVec.twoPow n 0⟩ := by
  rw [reset, BitVec.twoPow_zero]

/-- The decisions of the pipelined arbiter: the requests and who is served, at the clocks at
which it is to decide and somebody asks. -/
def State.decisions (s : State n) : List (BitVec n × Bool) → List (BitVec n × BitVec n)
  | [] => []
  | (request, increment) :: is =>
    (if increment && request != 0 then [(request, s.grant .roundRobin request)] else []) ++
      (s.step .roundRobin true request increment false).decisions is

theorem step_idle {s : State n} {request : BitVec n} {increment : Bool}
    (h : (increment && request != 0) = false) :
    s.step .roundRobin true request increment false = s := by
  cases increment with
  | false => rfl
  | true =>
    have hnone : request = 0 := by simpa using h
    simp [State.step, hnone]

/-- Every decision is a round, from the place behind the one served last. -/
theorem decisions_rounds (hmany : 1 < n) {p : Nat} (hp : p < n) (is : List (BitVec n × Bool)) :
    ∃ l, Rounds n BitVec.getLsbD p l ∧
      State.decisions ⟨BitVec.twoPow n p⟩ is = l.map fun d => (d.1, BitVec.twoPow n d.2) := by
  induction is generalizing p with
  | nil => exact ⟨[], .done p, rfl⟩
  | cons i is ih =>
    obtain ⟨request, increment⟩ := i
    cases hdecides : (increment && request != 0) with
    | false =>
      obtain ⟨l, hrounds, hl⟩ := ih hp
      refine ⟨l, hrounds, ?_⟩
      rw [State.decisions, hdecides, step_idle hdecides, hl]
      rfl
    | true =>
      obtain ⟨hincrement, hsome⟩ := Bool.and_eq_true_iff.mp hdecides
      have hne : request ≠ 0 := bne_iff_ne.mp hsome
      obtain ⟨i, hwinner, hgrant⟩ := grant_winner hp hmany hne
      have hstep : State.step ⟨BitVec.twoPow n p⟩ .roundRobin true request increment false =
          ⟨BitVec.twoPow n (next n i)⟩ := by
        rw [hincrement, State.step, if_pos rfl, if_pos rfl, if_pos hne, hgrant,
          rotate_twoPow hwinner.inside hmany]
      obtain ⟨l, hrounds, hl⟩ := ih (next_lt hwinner.inside)
      refine ⟨(request, i) :: l, .round hwinner hrounds, ?_⟩
      rw [State.decisions, hdecides, hstep, hl, hgrant]
      rfl

/-- In every run each decision serves one of those that ask, and who asks in as many decisions
as there are requesters, one behind the other, is served in one of them. -/
theorem turns_taken (hmany : 1 < n) (is : List (BitVec n × Bool)) :
    (∀ d ∈ (reset n).decisions is, ∃ i < n, d.2 = BitVec.twoPow n i ∧ d.1.getLsbD i = true) ∧
    ∀ early mid late, (reset n).decisions is = early ++ mid ++ late → n ≤ mid.length →
      ∀ i < n, (∀ d ∈ mid, d.1.getLsbD i = true) → ∃ d ∈ mid, d.2 = BitVec.twoPow n i := by
  have hzero : 0 < n := by omega
  obtain ⟨l, hrounds, hl⟩ := decisions_rounds hmany hzero is
  rw [reset_twoPow, hl]
  refine ⟨fun d hd => ?_, fun early mid late hsplit hlong i hi hasks => ?_⟩
  · obtain ⟨e, he, rfl⟩ := List.mem_map.mp hd
    obtain ⟨hlt, hasked⟩ := hrounds.winners e he
    exact ⟨e.2, hlt, rfl, hasked⟩
  · obtain ⟨front, late', rfl, hfront, -⟩ := List.map_eq_append_iff.mp hsplit
    obtain ⟨early', mid', rfl, -, rfl⟩ := List.map_eq_append_iff.mp hfront
    rw [List.append_assoc] at hrounds
    obtain ⟨q, hq, hrest⟩ := hrounds.drop hzero
    rw [List.length_map] at hlong
    obtain ⟨e, he, rfl⟩ := hrest.take.served hq hi
      (fun d hd => hasks _ (List.mem_map_of_mem hd)) (lt_of_lt_of_le (distance_lt hq hi) hlong)
    exact ⟨_, List.mem_map_of_mem he, rfl⟩

/-- Three requesters, of whom the last one keeps asking. -/
theorem turns_taken_three : ∃ d ∈ (reset 3).decisions [(0b101, true), (0b111, true), (0b110, true)],
    d.2 = BitVec.twoPow 3 2 :=
  (turns_taken (by decide) _).2 [] _ [] (List.append_nil _).symm (by decide +kernel) 2 (by decide)
    (by decide +kernel)

end Arbiter
