import Mathlib.Data.List.Basic

/-!
# The FIFO of the bus

`altera_avalon_sc_fifo` in registers: a shift register of any depth, with a bit for each
slot that says whether it is in use. At its ports it is a queue: what comes out is what
went in, in that order, and it refuses a word only when it is full.
-/
namespace ScFifo

variable {n : Nat} {α : Type}

/-- The ports in one clock; the depth is n + 1. -/
structure Inputs (α : Type) where
  inValid : Bool
  inPayload : α
  outReady : Bool

structure State (n : Nat) (α : Type) where
  mem : Vector α (n + 1)
  memUsed : BitVec (n + 1)
  deriving Repr

def reset (n : Nat) [Inhabited α] : State n α := ⟨Vector.replicate (n + 1) default, 0⟩

/-- With an EMPTY_LATENCY of zero (lookahead) a write is seen at once. -/
def State.empty (s : State n α) (lookahead : Bool) (x : Inputs α) : Bool :=
  !s.memUsed.getLsbD 0 && !(lookahead && x.inValid)

def State.outValid (s : State n α) (lookahead : Bool) (x : Inputs α) : Bool := !s.empty lookahead x

def State.outPayload (s : State n α) (lookahead : Bool) (x : Inputs α) : α :=
  if lookahead && !s.memUsed.getLsbD 0 && x.inValid then x.inPayload else s.mem[0]

/-- internal_out_ready && internal_out_valid -/
def State.read (s : State n α) (lookahead : Bool) (x : Inputs α) : Bool :=
  (x.outReady || !s.outValid lookahead x) && s.outValid lookahead x

/-- For a single slot, reading clears the full status immediately. -/
def State.full (s : State n α) (lookahead : Bool) (x : Inputs α) : Bool :=
  if n = 0 then s.memUsed.getLsbD 0 && !s.read lookahead x else s.memUsed.getLsbD n

def State.inReady (s : State n α) (lookahead : Bool) (x : Inputs α) : Bool := !s.full lookahead x

def State.write (s : State n α) (lookahead : Bool) (x : Inputs α) : Bool :=
  s.inReady lookahead x && x.inValid

/-- A slot moves on at a read or when it is not in use, and takes the new word when the one
behind it is not in use; the last slot takes it whenever it is free. -/
def State.slot (s : State n α) (lookahead : Bool) (x : Inputs α) (i : Fin (n + 1)) : α :=
  if h : i.val + 1 < n + 1 then
    if s.read lookahead x || !s.memUsed.getLsbD i then
      if s.memUsed.getLsbD (i + 1) then s.mem[i.val + 1] else x.inPayload
    else s.mem[i]
  else if n = 0 then if s.write lookahead x then x.inPayload else s.mem[i]
  else if s.memUsed.getLsbD i then s.mem[i]
  else x.inPayload

def State.step (s : State n α) (lookahead : Bool) (x : Inputs α) : State n α where
  mem := Vector.ofFn (s.slot lookahead x)
  memUsed :=
    if s.write lookahead x ^^ s.read lookahead x then
      if s.write lookahead x then s.memUsed <<< 1 ||| 1 else s.memUsed >>> 1
    else s.memUsed

/-- The words that go in and come out in a clock. -/
def State.given (s : State n α) (lookahead : Bool) (x : Inputs α) : List α :=
  if s.write lookahead x then [x.inPayload] else []

def State.taken (s : State n α) (lookahead : Bool) (x : Inputs α) : List α :=
  if s.read lookahead x then [s.outPayload lookahead x] else []

/-! ## The queue in the registers -/

/-- The slots in use are the first ones, and they hold the queue. -/
structure Holds (s : State n α) (q : List α) : Prop where
  short : q.length ≤ n + 1
  used : ∀ i < n + 1, s.memUsed.getLsbD i = decide (i < q.length)
  mem : ∀ (i : Nat) (a : α), q[i]? = some a → s.mem[i]? = some a

variable {s : State n α} {q : List α} {lookahead : Bool} (x : Inputs α)

theorem holds_reset [Inhabited α] : Holds (reset n : State n α) [] where
  short := Nat.zero_le _
  used i _ := by simp [reset]
  mem i a h := by simp at h

theorem head_used (h : Holds s q) : s.memUsed.getLsbD 0 = !q.isEmpty := by
  rw [h.used 0 (by omega)]
  cases q <;> simp

theorem outValid_eq (h : Holds s q) :
    s.outValid lookahead x = (!q.isEmpty || (lookahead && x.inValid)) := by
  rw [State.outValid, State.empty, head_used h]
  cases q.isEmpty <;> simp

theorem read_eq (h : Holds s q) :
    s.read lookahead x = (x.outReady && (!q.isEmpty || (lookahead && x.inValid))) := by
  rw [State.read, ← outValid_eq x h]
  cases s.outValid lookahead x <;> simp

/-- There is room, or there will be when the only slot is read. -/
theorem inReady_eq (h : Holds s q) : s.inReady lookahead x =
    (decide (q.length ≤ n) || (decide (n = 0) && s.read lookahead x)) := by
  rw [State.inReady, State.full]
  by_cases hn : n = 0
  · subst hn
    rw [if_pos rfl, head_used h]
    cases q with
    | nil => simp
    | cons a l => simp
  · rw [if_neg hn, h.used n (by omega), decide_eq_false hn, Bool.false_and, Bool.or_false,
      ← decide_not]
    exact decide_eq_decide.mpr Nat.not_lt

/-- A word that comes out is the oldest one, or the one just offered when there is none. -/
theorem outPayload_cons {a : α} {l : List α} (h : Holds s (a :: l)) :
    s.outPayload lookahead x = a := by
  have hmem := h.mem 0 a rfl
  rw [State.outPayload, head_used h]
  simpa using hmem

theorem outPayload_nil (h : Holds s []) (hread : s.read lookahead x = true) :
    s.outPayload lookahead x = x.inPayload ∧ s.write lookahead x = true := by
  rw [read_eq x h] at hread
  have hboth : (lookahead && x.inValid) = true := by simpa using (Bool.and_eq_true_iff.mp hread).2
  obtain ⟨hlook, hvalid⟩ := Bool.and_eq_true_iff.mp hboth
  refine ⟨?_, ?_⟩
  · rw [State.outPayload, head_used h]
    simp [hlook, hvalid]
  · rw [State.write, inReady_eq x h]
    simp [hvalid]

/-- A word goes in where there is a slot for it, or the only one becomes free. -/
theorem write_room (h : Holds s q) (hwrite : s.write lookahead x = true) :
    q.length ≤ n ∨ n = 0 ∧ s.read lookahead x = true := by
  have hready := (Bool.and_eq_true_iff.mp hwrite).1
  rw [inReady_eq x h] at hready
  simpa using hready

/-- What a clock does to the queue. -/
def next (q : List α) (write read : Bool) (a : α) : List α :=
  (q ++ if write then [a] else []).drop (if read then 1 else 0)

theorem next_balance (h : Holds s q) : q ++ s.given lookahead x =
    s.taken lookahead x ++ next q (s.write lookahead x) (s.read lookahead x) x.inPayload := by
  rw [State.given, State.taken, next]
  cases hread : s.read lookahead x with
  | false => simp
  | true =>
    cases q with
    | nil =>
      obtain ⟨hpayload, hwrite⟩ := outPayload_nil x h hread
      simp [hpayload, hwrite]
    | cons a l => simp [outPayload_cons x h]

theorem length_next (write read : Bool) (a : α) : (next q write read a).length =
    q.length + (if write then 1 else 0) - if read then 1 else 0 := by
  cases write <;> cases read <;> simp [next]

theorem used_step (h : Holds s q) {i : Nat} (hi : i < n + 1) :
    (s.step lookahead x).memUsed.getLsbD i =
      decide (i < (next q (s.write lookahead x) (s.read lookahead x) x.inPayload).length) := by
  rw [length_next]
  have hused := h.used i hi
  have hempty : q = [] → s.read lookahead x = true → s.write lookahead x = true := by
    rintro rfl hread
    exact (outPayload_nil x h hread).2
  cases hwrite : s.write lookahead x with
  | false =>
    cases hread : s.read lookahead x with
    | false => simpa [State.step, hwrite, hread] using hused
    | true =>
      have hlen : q.length ≠ 0 := by
        intro hnone
        have hsome := hempty (List.length_eq_zero_iff.mp hnone) hread
        rw [hwrite] at hsome
        cases hsome
      have hshift : (s.step lookahead x).memUsed.getLsbD i = s.memUsed.getLsbD (i + 1) := by
        simp [State.step, hwrite, hread, Nat.add_comm]
      rw [hshift]
      by_cases hlast : i + 1 < n + 1
      · rw [h.used _ hlast]
        simp only [if_true, Bool.false_eq_true, if_false]
        exact decide_eq_decide.mpr (by omega)
      · rw [BitVec.getLsbD_of_ge _ _ (by omega)]
        have hshort := h.short
        simp only [if_true, Bool.false_eq_true, if_false]
        exact (decide_eq_false (by omega)).symm
  | true =>
    cases hread : s.read lookahead x with
    | true => simpa [State.step, hwrite, hread] using hused
    | false =>
      have hshift : (s.step lookahead x).memUsed.getLsbD i =
          (decide (i = 0) || s.memUsed.getLsbD (i - 1)) := by
        simp only [State.step, hwrite, hread, Bool.xor_false, if_true, BitVec.getLsbD_or,
          BitVec.getLsbD_shiftLeft, hi, decide_true, Bool.true_and]
        by_cases hzero : i = 0 <;> simp [hzero]
      rw [hshift, h.used _ (by omega), ← Bool.decide_or]
      simp only [if_true, Bool.false_eq_true, if_false]
      exact decide_eq_decide.mpr (by omega)

theorem mem_slot {i : Nat} (hi : i < n + 1) :
    (s.step lookahead x).mem[i]? = some (s.slot lookahead x ⟨i, hi⟩) := by
  rw [State.step, Vector.getElem?_ofFn, dif_pos hi]

/-- Without a read the words in use stay where they are. -/
theorem slot_kept {i : Nat} {a : α} (hi : i < n + 1) (hused : s.memUsed.getLsbD i = true)
    (hread : s.read lookahead x = false) (hfull : n = 0 → s.write lookahead x = false)
    (ha : s.mem[i]? = some a) : s.slot lookahead x ⟨i, hi⟩ = a := by
  have hkept : s.slot lookahead x ⟨i, hi⟩ = s.mem[i] := by
    by_cases hlast : i + 1 < n + 1
    · simp [State.slot, hlast, hused, hread]
    · by_cases hn : n = 0
      · simp [State.slot, hn, hfull hn]
      · simp [State.slot, hlast, hn, hused]
  rw [hkept]
  simpa [hi] using ha

/-- A read brings the next word forward. -/
theorem slot_moved {i : Nat} {a : α} (hi : i < n + 1) (hlast : i + 1 < n + 1)
    (hused : s.memUsed.getLsbD (i + 1) = true) (hread : s.read lookahead x = true)
    (ha : s.mem[i + 1]? = some a) : s.slot lookahead x ⟨i, hi⟩ = a := by
  have hmoved : s.slot lookahead x ⟨i, hi⟩ = s.mem[i + 1] := by
    simp [State.slot, hlast, hused, hread]
  rw [hmoved]
  simpa [hlast] using ha

/-- The new word is in every slot behind the words in use. -/
theorem slot_new {i : Nat} (hi : i < n + 1)
    (hfree : s.read lookahead x = true ∨ s.memUsed.getLsbD i = false)
    (hbehind : s.memUsed.getLsbD (i + 1) = false)
    (hlast : i = n → if n = 0 then s.write lookahead x = true else s.memUsed.getLsbD i = false) :
    s.slot lookahead x ⟨i, hi⟩ = x.inPayload := by
  by_cases hinner : i + 1 < n + 1
  · obtain hread | hunused := hfree
    · simp only [State.slot, hinner, hread, hbehind, dite_true, Bool.true_or, if_true,
        Bool.false_eq_true, if_false]
    · simp only [State.slot, hinner, hunused, hbehind, dite_true, Bool.not_false, Bool.or_true,
        if_true, Bool.false_eq_true, if_false]
  · have hend := hlast (by omega)
    by_cases hn : n = 0
    · rw [if_pos hn] at hend
      simp [State.slot, hn, hend]
    · rw [if_neg hn] at hend
      simp [State.slot, hinner, hn, hend]

theorem behind_unused (h : Holds s q) {i : Nat} (hi : q.length ≤ i) :
    s.memUsed.getLsbD i = false := by
  by_cases hlt : i < n + 1
  · rw [h.used i hlt, decide_eq_false (by omega)]
  · exact BitVec.getLsbD_of_ge _ _ (by omega)

/-- A slot that holds a word of the new queue has got it from where it was. -/
theorem mem_step (h : Holds s q) {i : Nat} {a : α}
    (ha : (next q (s.write lookahead x) (s.read lookahead x) x.inPayload)[i]? = some a) :
    (s.step lookahead x).mem[i]? = some a := by
  have hshort := h.short
  cases hread : s.read lookahead x with
  | false =>
    rw [hread, next, if_neg Bool.false_ne_true, List.drop_zero] at ha
    by_cases hold : i < q.length
    · rw [List.getElem?_append_left hold] at ha
      have hfull : n = 0 → s.write lookahead x = false := by
        intro hn
        by_contra hwrite
        obtain hroom | ⟨-, htaken⟩ := write_room x h (by simpa using hwrite)
        · omega
        · rw [hread] at htaken
          cases htaken
      rw [mem_slot x (by omega), slot_kept x (by omega)
        (by rw [h.used i (by omega), decide_eq_true hold]) hread hfull (h.mem i a ha)]
    · rw [List.getElem?_append_right (by omega)] at ha
      cases hwrite : s.write lookahead x with
      | false => simp [hwrite] at ha
      | true =>
        have hroom : q.length ≤ n := by
          have := write_room x h hwrite
          simpa [hread] using this
        rw [hwrite, if_pos rfl] at ha
        have hi : i = q.length := by
          have hone := (List.getElem?_eq_some_iff.mp ha).1
          simp only [List.length_singleton] at hone
          omega
        subst hi
        have hunused := behind_unused h (Nat.le_refl q.length)
        rw [mem_slot x (by omega), slot_new x (by omega) (.inr hunused)
          (behind_unused h (by omega)) fun _ => by
            split
            · exact hwrite
            · exact hunused]
        simpa using ha
  | true =>
    rw [hread, next, if_pos rfl, List.getElem?_drop] at ha
    by_cases hold : 1 + i < q.length
    · rw [List.getElem?_append_left hold, Nat.add_comm] at ha
      rw [mem_slot x (by omega), slot_moved x (by omega) (by omega)
        (by rw [h.used (i + 1) (by omega), decide_eq_true (by omega)]) hread (h.mem _ a ha)]
    · rw [List.getElem?_append_right (by omega)] at ha
      cases hwrite : s.write lookahead x with
      | false => simp [hwrite] at ha
      | true =>
        rw [hwrite, if_pos rfl] at ha
        have hi : 1 + i = q.length := by
          have hone := (List.getElem?_eq_some_iff.mp ha).1
          simp only [List.length_singleton] at hone
          omega
        rw [mem_slot x (by omega), slot_new x (by omega) (.inl hread)
          (behind_unused h (by omega)) fun hlast => by
            have hroom := write_room x h hwrite
            rw [if_pos (by omega)]
            exact hwrite]
        rw [hi, Nat.sub_self] at ha
        simpa using ha

theorem holds_next (lookahead : Bool) (h : Holds s q) : Holds (s.step lookahead x)
    (next q (s.write lookahead x) (s.read lookahead x) x.inPayload) := by
  refine ⟨?_, fun i hi => used_step x h hi, fun i a ha => mem_step x h ha⟩
  rw [length_next]
  have hshort := h.short
  cases hwrite : s.write lookahead x with
  | false =>
    simp only [Bool.false_eq_true, if_false]
    omega
  | true =>
    obtain hroom | ⟨-, hread⟩ := write_room x h hwrite
    · simp only [if_true]
      omega
    · rw [hread]
      simp only [if_true]
      omega

/-- One clock: the FIFO still holds a queue, and no word is lost, invented or overtaken. -/
theorem holds_step (lookahead : Bool) (h : Holds s q) : ∃ q', Holds (s.step lookahead x) q' ∧
    q ++ s.given lookahead x = s.taken lookahead x ++ q' :=
  ⟨_, holds_next x lookahead h, next_balance x h⟩

/-! ## Runs -/

def State.run (lookahead : Bool) (s : State n α) (xs : List (Inputs α)) : State n α :=
  xs.foldl (fun s x => s.step lookahead x) s

def givenAlong (lookahead : Bool) (s : State n α) : List (Inputs α) → List α
  | [] => []
  | x :: xs => s.given lookahead x ++ givenAlong lookahead (s.step lookahead x) xs

def takenAlong (lookahead : Bool) (s : State n α) : List (Inputs α) → List α
  | [] => []
  | x :: xs => s.taken lookahead x ++ takenAlong lookahead (s.step lookahead x) xs

theorem holds_run (lookahead : Bool) (h : Holds s q) (xs : List (Inputs α)) :
    ∃ q', Holds (s.run lookahead xs) q' ∧
    q ++ givenAlong lookahead s xs = takenAlong lookahead s xs ++ q' := by
  induction xs generalizing s q with
  | nil => exact ⟨q, h, List.append_nil q⟩
  | cons x xs ih =>
    obtain ⟨q', hnext, hone⟩ := holds_step x lookahead h
    obtain ⟨q'', hlast, hrest⟩ := ih hnext
    refine ⟨q'', hlast, ?_⟩
    rw [givenAlong, takenAlong, ← List.append_assoc, hone, List.append_assoc, hrest,
      List.append_assoc]

/-- At any depth, with or without lookahead, whatever is offered and taken: the words that
have come out and those that the slots still hold are the words that went in, in that order;
there are no more inside than the depth; a word is refused only when it is full and offered only
when there is one. -/
theorem queue [Inhabited α] (xs : List (Inputs α)) : ∃ q : List α,
    Holds ((reset n).run lookahead xs) q ∧
    givenAlong lookahead (reset n) xs = takenAlong lookahead (reset n) xs ++ q ∧
    q.length ≤ n + 1 ∧ ∀ x, let s : State n α := (reset n).run lookahead xs
      s.outValid lookahead x = (!q.isEmpty || (lookahead && x.inValid)) ∧
      (s.inReady lookahead x = true ↔ q.length ≤ n ∨ n = 0 ∧ s.read lookahead x = true) := by
  obtain ⟨q, hholds, hbalance⟩ := holds_run lookahead holds_reset xs
  refine ⟨q, hholds, hbalance, hholds.short, fun x => ⟨outValid_eq x hholds, ?_⟩⟩
  rw [inReady_eq x hholds]
  simp

end ScFifo
