import Mathlib.Data.Fintype.Basic
import Mathlib.Data.List.Chain
import Mathlib.Tactic.FinCases
import NiosMenu.Arbiter

/-!
# Two masters in front of one slave

`nios_mm_interconnect_0_cmd_mux_002` with its arbiter. The slave takes the beats of one
master until the packet ends, and a master that waits sees the other one finish one
packet at most.
-/
namespace CommandMux

open RoundRobin

abbrev dataMaster : Fin 2 := 0
abbrev instructionMaster : Fin 2 := 1

structure Beat where
  data : BitVec 93
  channel : BitVec 7
  startofpacket : Bool
  endofpacket : Bool
  deriving DecidableEq, Repr

structure Sink where
  valid : Bool
  beat : Beat
  deriving DecidableEq, Repr

/-- sink_payload & {PAYLOAD_W{grant}}, field by field. -/
def Beat.masked (b : Beat) (grant : Bool) : Beat where
  data := b.data &&& BitVec.fill 93 grant
  channel := b.channel &&& BitVec.fill 7 grant
  startofpacket := b.startofpacket && grant
  endofpacket := b.endofpacket && grant

def Beat.or (b c : Beat) : Beat where
  data := b.data ||| c.data
  channel := b.channel ||| c.channel
  startofpacket := b.startofpacket || c.startofpacket
  endofpacket := b.endofpacket || c.endofpacket

/-- PKT_TRANS_LOCK, which joins a packet to the next one. -/
def Beat.lock (b : Beat) : Bool := b.data.getLsbD 57

/-- The last beat before another master may be served. -/
def Beat.ends (b : Beat) : Bool := b.endofpacket && !b.lock

structure Inputs where
  sink : Fin 2 → Sink
  srcReady : Bool

structure State where
  locked : BitVec 2
  packetInProgress : Bool
  shareCount : BitVec 1
  shareCountZeroFlag : Bool
  savedGrant : BitVec 2
  arb : Arbiter.State 2
  deriving DecidableEq, Repr

def reset : State := ⟨0, false, 0, true, 0, Arbiter.reset 2⟩

def Inputs.valid (x : Inputs) : BitVec 2 :=
  BitVec.ofBool (x.sink 1).valid ++ BitVec.ofBool (x.sink 0).valid

def Inputs.lock (x : Inputs) : BitVec 2 :=
  BitVec.ofBool (x.sink 1).beat.lock ++ BitVec.ofBool (x.sink 0).beat.lock

def State.srcValid (s : State) (x : Inputs) : Bool := s.savedGrant &&& x.valid != 0

def State.src (s : State) (x : Inputs) : Beat :=
  ((x.sink 0).beat.masked (s.savedGrant.getLsbD 0)).or
    ((x.sink 1).beat.masked (s.savedGrant.getLsbD 1))

def State.sinkReady (s : State) (x : Inputs) (i : Fin 2) : Bool :=
  x.srcReady && s.savedGrant.getLsbD i

def State.lastCycle (s : State) (x : Inputs) : Bool :=
  s.srcValid x && x.srcReady && (s.src x).endofpacket && !(x.lock &&& s.savedGrant != 0)

def State.request (s : State) (x : Inputs) : BitVec 2 := x.valid ||| s.locked

def State.nextGrant (s : State) (x : Inputs) : BitVec 2 :=
  s.arb.grant .roundRobin (s.request x)

def State.updateGrant (s : State) (x : Inputs) : Bool :=
  (!s.packetInProgress && !s.srcValid x) || (s.lastCycle x && s.shareCountZeroFlag)

/-- share_0 and share_1 -/
def share : BitVec 1 := 0

def State.nextGrantShare (s : State) (x : Inputs) : BitVec 1 :=
  (share &&& BitVec.fill 1 ((s.nextGrant x).getLsbD 0)) |||
    (share &&& BitVec.fill 1 ((s.nextGrant x).getLsbD 1))

def State.p1ShareCount (s : State) : BitVec 1 :=
  if s.shareCountZeroFlag then 0 else s.shareCount - 1

def State.step (s : State) (x : Inputs) : State where
  locked := s.nextGrant x &&& x.lock
  packetInProgress :=
    if s.lastCycle x then false else if s.srcValid x then true else s.packetInProgress
  shareCount :=
    if s.updateGrant x then s.nextGrantShare x
    else if s.lastCycle x then s.p1ShareCount
    else s.shareCount
  shareCountZeroFlag :=
    if s.updateGrant x then s.nextGrantShare x == 0
    else if s.lastCycle x then s.p1ShareCount == 0
    else s.shareCountZeroFlag
  savedGrant := if s.updateGrant x then s.nextGrant x else s.savedGrant
  arb := s.arb.step .roundRobin true (s.request x) (s.updateGrant x) (s.srcValid x)

def State.run (s : State) (xs : List Inputs) : State := xs.foldl State.step s

@[simp] theorem run_nil (s : State) : s.run [] = s := rfl
@[simp] theorem run_cons (s : State) (x : Inputs) (xs : List Inputs) :
    s.run (x :: xs) = (s.step x).run xs := rfl
theorem run_append (s : State) (xs ys : List Inputs) : s.run (xs ++ ys) = (s.run xs).run ys :=
  List.foldl_append

/-! ## The granted master -/

theorem srcValid_none {s : State} (h : s.savedGrant = 0) (x : Inputs) : s.srcValid x = false := by
  simp [State.srcValid, h]

theorem twoPow_and (i : Fin 2) (a b : Bool) :
    (BitVec.ofBool b ++ BitVec.ofBool a &&& BitVec.twoPow 2 i != 0) = if i = 0 then a else b := by
  revert i a b
  decide

theorem srcValid_some {s : State} {i : Fin 2} (h : s.savedGrant = BitVec.twoPow 2 i) (x : Inputs) :
    s.srcValid x = (x.sink i).valid := by
  rw [State.srcValid, h, Inputs.valid, BitVec.and_comm, twoPow_and]
  fin_cases i <;> rfl

theorem lock_some {s : State} {i : Fin 2} (h : s.savedGrant = BitVec.twoPow 2 i) (x : Inputs) :
    (x.lock &&& s.savedGrant != 0) = (x.sink i).beat.lock := by
  rw [h, Inputs.lock, twoPow_and]
  fin_cases i <;> rfl

theorem masked_true (b : Beat) : b.masked true = b := by
  simp [Beat.masked, BitVec.fill_true, -BitVec.reduceAllOnes]

theorem masked_false_or (b c : Beat) : (b.masked false).or c = c := by simp [Beat.masked, Beat.or]

theorem or_masked_false (b c : Beat) : c.or (b.masked false) = c := by simp [Beat.masked, Beat.or]

theorem src_some {s : State} {i : Fin 2} (h : s.savedGrant = BitVec.twoPow 2 i) (x : Inputs) :
    s.src x = (x.sink i).beat := by
  rw [State.src, h]
  fin_cases i
  · exact (or_masked_false _ _).trans (masked_true _)
  · exact (masked_false_or _ _).trans (masked_true _)

theorem sinkReady_some {s : State} {i : Fin 2} (h : s.savedGrant = BitVec.twoPow 2 i) (x : Inputs)
    (j : Fin 2) : s.sinkReady x j = (x.srcReady && decide (j = i)) := by
  rw [State.sinkReady, h]
  fin_cases i <;> fin_cases j <;> rfl

theorem lastCycle_some {s : State} {i : Fin 2} (h : s.savedGrant = BitVec.twoPow 2 i)
    (x : Inputs) : s.lastCycle x = ((x.sink i).valid && x.srcReady && (x.sink i).beat.ends) := by
  rw [State.lastCycle, srcValid_some h, src_some h, lock_some h, Beat.ends, Bool.and_assoc]

/-! ## One clock -/

/-- The beats that the masters hand over, and the one that the slave takes. -/
def State.handed (s : State) (x : Inputs) : List (Fin 2 × Beat) :=
  (List.finRange 2).flatMap fun i =>
    if (x.sink i).valid && s.sinkReady x i then [(i, (x.sink i).beat)] else []

def State.taken (s : State) (x : Inputs) : List Beat :=
  if s.srcValid x && x.srcReady then [s.src x] else []

/-- Who is granted, and who comes first in the next decision. -/
structure Tracks (s : State) (g : Option (Fin 2)) (p : Nat) : Prop where
  grant : s.savedGrant = g.elim 0 fun i => BitVec.twoPow 2 i
  last : s.shareCountZeroFlag = true
  arb : s.arb = ⟨BitVec.twoPow 2 p⟩
  inside : p < 2
  turn : ∀ i, g = some i → p = next 2 i
  busy : s.packetInProgress = true → g.isSome = true

theorem tracks_reset : Tracks reset none 0 :=
  ⟨rfl, rfl, Arbiter.reset_twoPow 2, by omega, by simp, fun h => by cases h⟩

variable {s : State} {g : Option (Fin 2)} {p : Nat}

/-- A clock hands over what the granted master offers. -/
theorem handed_eq (h : Tracks s g p) (x : Inputs) : s.handed x = g.toList.flatMap fun i =>
    if (x.sink i).valid && x.srcReady then [(i, (x.sink i).beat)] else [] := by
  have hrange : List.finRange 2 = [0, 1] := by decide
  have hgrant := h.grant
  rw [State.handed, hrange]
  cases g with
  | none =>
    have hnone : ∀ i, s.sinkReady x i = false := by simp [State.sinkReady, hgrant]
    simp [hnone]
  | some i =>
    have hready := sinkReady_some hgrant x
    fin_cases i <;> simp [hready]

theorem taken_eq (h : Tracks s g p) (x : Inputs) : s.taken x = (s.handed x).map Prod.snd := by
  rw [handed_eq h, State.taken]
  have hgrant := h.grant
  cases g with
  | none => simp [srcValid_none hgrant]
  | some i =>
    rw [srcValid_some hgrant, src_some hgrant, Option.toList_some, List.flatMap_singleton]
    split <;> rfl

/-- A packet in progress keeps its grant; else the next one in turn is granted. -/
theorem tracks_step (h : Tracks s g p) (x : Inputs) :
    (s.updateGrant x = false ∧ Tracks (s.step x) g p) ∨
    (s.updateGrant x = true ∧ s.request x = 0 ∧ Tracks (s.step x) none p) ∨
    (s.updateGrant x = true ∧ ∃ i : Fin 2, Winner 2 (s.request x).getLsbD p i ∧
      Tracks (s.step x) (some i) (next 2 i)) := by
  have hlast : (s.step x).shareCountZeroFlag = true := by
    have hshare : s.nextGrantShare x = 0 := by simp [State.nextGrantShare, share]
    have hcount : s.p1ShareCount = 0 := if_pos h.last
    simp [State.step, hshare, hcount, h.last]
  cases hupdate : s.updateGrant x with
  | false =>
    refine .inl ⟨rfl, ⟨?_, hlast, ?_, h.inside, h.turn, ?_⟩⟩
    · rw [← h.grant]
      simp [State.step, hupdate]
    · rw [← h.arb]
      simp [State.step, hupdate, Arbiter.State.step]
    · intro hbusy
      cases hg : g with
      | some i => rfl
      | none =>
        have hquiet := srcValid_none (h.grant.trans (by rw [hg]; rfl)) x
        have hidle : s.packetInProgress = false := by
          by_contra hprogress
          have hsome := h.busy (by simpa using hprogress)
          rw [hg] at hsome
          cases hsome
        simp [State.updateGrant, hquiet, hidle] at hupdate
  | true =>
    have hidle : (s.step x).packetInProgress = false := by
      obtain hfree | hend := Bool.or_eq_true_iff.mp hupdate
      · obtain ⟨hprogress, hquiet⟩ := Bool.and_eq_true_iff.mp hfree
        have hnone : s.srcValid x = false := by simpa using hquiet
        simpa [State.step, State.lastCycle, hnone] using hprogress
      · have hlastCycle := (Bool.and_eq_true_iff.mp hend).1
        simp [State.step, hlastCycle]
    have hgrant : (s.step x).savedGrant = s.nextGrant x := by simp [State.step, hupdate]
    have harb : (s.step x).arb = s.arb.step .roundRobin true (s.request x) true (s.srcValid x) := by
      simp [State.step, hupdate]
    have hbusy : ∀ g' : Option (Fin 2), (s.step x).packetInProgress = true → g'.isSome = true := by
      simp [hidle]
    by_cases hrequest : s.request x = 0
    · refine .inr (.inl ⟨rfl, hrequest, ⟨?_, hlast, ?_, h.inside, by simp, hbusy _⟩⟩)
      · rw [hgrant, State.nextGrant, hrequest, Arbiter.grant_zero]
        rfl
      · rw [harb, ← h.arb]
        simp [Arbiter.State.step, hrequest]
    · obtain ⟨i, hwinner, hi⟩ := Arbiter.grant_winner h.inside (by omega) hrequest
      refine .inr (.inr ⟨rfl, ⟨i, hwinner.inside⟩, hwinner, ⟨?_, hlast, ?_, next_lt hwinner.inside,
        fun k hk => by rw [← Option.some.inj hk], hbusy _⟩⟩)
      · rw [hgrant, State.nextGrant, h.arb, hi]
        rfl
      · rw [harb, h.arb, Arbiter.State.step, if_pos rfl, if_pos rfl, if_pos hrequest, hi,
          Arbiter.rotate_twoPow hwinner.inside (by omega)]

theorem update_some {i : Fin 2} (h : Tracks s (some i) p) (x : Inputs) :
    s.updateGrant x = ((!s.packetInProgress && !(x.sink i).valid) ||
      ((x.sink i).valid && x.srcReady && (x.sink i).beat.ends)) := by
  rw [State.updateGrant, srcValid_some h.grant, lastCycle_some h.grant, h.last, Bool.and_true]

/-- A packet under way keeps the grant until it ends. -/
theorem kept_step {i : Fin 2} (h : Tracks s (some i) p) {x : Inputs}
    (hbusy : s.packetInProgress = true ∨ (x.sink i).valid = true)
    (hopen : ((x.sink i).valid && x.srcReady && (x.sink i).beat.ends) = false) :
    Tracks (s.step x) (some i) p ∧ (s.step x).packetInProgress = true := by
  have hkeep : s.updateGrant x = false := by
    rw [update_some h, hopen]
    obtain hprogress | hvalid := hbusy
    · simp [hprogress]
    · simp [hvalid]
  have hlast : s.lastCycle x = false := (lastCycle_some h.grant x).trans hopen
  have hprogress : (s.step x).packetInProgress = true := by
    simp only [State.step, hlast, srcValid_some h.grant, Bool.false_eq_true, if_false]
    obtain hprogress | hvalid := hbusy
    · simp [hprogress]
    · simp [hvalid]
  obtain ⟨-, hnext⟩ | ⟨hupdate, -⟩ | ⟨hupdate, -⟩ := tracks_step h x
  · exact ⟨hnext, hprogress⟩
  · rw [hkeep] at hupdate
    cases hupdate
  · rw [hkeep] at hupdate
    cases hupdate

theorem tracks_next (h : Tracks s g p) (x : Inputs) : ∃ g' p', Tracks (s.step x) g' p' := by
  obtain ⟨-, hnext⟩ | ⟨-, -, hnext⟩ | ⟨-, i, -, hnext⟩ := tracks_step h x
  · exact ⟨g, p, hnext⟩
  · exact ⟨none, p, hnext⟩
  · exact ⟨some i, next 2 i, hnext⟩

/-! ## Whole packets -/

def handedAlong (s : State) : List Inputs → List (Fin 2 × Beat)
  | [] => []
  | x :: xs => s.handed x ++ handedAlong (s.step x) xs

def takenAlong (s : State) : List Inputs → List Beat
  | [] => []
  | x :: xs => s.taken x ++ takenAlong (s.step x) xs

/-- The next beat comes from the same master, or a packet has ended. -/
def Follows (a b : Fin 2 × Beat) : Prop := a.1 = b.1 ∨ a.2.ends = true

/-- Behind some beats handed over, the master of a packet that has not ended has the grant. -/
structure Whole (s : State) (g : Option (Fin 2)) (bs : List (Fin 2 × Beat)) : Prop where
  chain : bs.IsChain Follows
  last : ∀ a ∈ bs.getLast?, a.2.ends = true ∨ s.packetInProgress = true ∧ g = some a.1

theorem whole_step {bs : List (Fin 2 × Beat)} (h : Tracks s g p) (hwhole : Whole s g bs)
    (x : Inputs) : ∃ g' p', Tracks (s.step x) g' p' ∧ Whole (s.step x) g' (bs ++ s.handed x) := by
  by_cases hhanded : ∃ i, g = some i ∧ ((x.sink i).valid && x.srcReady) = true
  · obtain ⟨i, rfl, hoffers⟩ := hhanded
    have hone : s.handed x = [(i, (x.sink i).beat)] := by
      rw [handed_eq h, Option.toList_some, List.flatMap_singleton, if_pos hoffers]
    have hchain : (bs ++ [(i, (x.sink i).beat)]).IsChain Follows := by
      refine List.isChain_append.mpr ⟨hwhole.chain, .singleton _, fun a ha b hb => ?_⟩
      obtain rfl : (i, (x.sink i).beat) = b := by simpa using hb
      obtain hend | ⟨-, hsame⟩ := hwhole.last a ha
      · exact .inr hend
      · exact .inl (Option.some.inj hsame).symm
    have hlast : ∀ a ∈ (bs ++ [(i, (x.sink i).beat)]).getLast?, a = (i, (x.sink i).beat) := by
      simp
    rw [hone]
    cases hend : (x.sink i).beat.ends with
    | true =>
      obtain ⟨g', p', hnext⟩ := tracks_next h x
      exact ⟨g', p', hnext, hchain, fun a ha => .inl (by rw [hlast a ha, hend])⟩
    | false =>
      obtain ⟨hnext, hprogress⟩ := kept_step h (x := x)
        (.inr (Bool.and_eq_true_iff.mp hoffers).1) (by rw [hend, Bool.and_false])
      exact ⟨some i, p, hnext, hchain, fun a ha => .inr ⟨hprogress, by rw [hlast a ha]⟩⟩
  · have hnone : s.handed x = [] := by
      rw [handed_eq h]
      refine List.flatMap_eq_nil_iff.mpr fun i hi => if_neg fun hoffers => hhanded ⟨i, ?_, hoffers⟩
      exact Option.mem_toList.mp hi
    rw [hnone, List.append_nil]
    by_cases hopen : s.packetInProgress = true ∧ ∃ i, g = some i
    · obtain ⟨hprogress, i, rfl⟩ := hopen
      have hquiet : ((x.sink i).valid && x.srcReady) = false := by
        by_contra hoffers
        exact hhanded ⟨i, rfl, by simpa using hoffers⟩
      obtain ⟨hnext, hstill⟩ :=
        kept_step h (x := x) (.inl hprogress) (by rw [hquiet, Bool.false_and])
      exact ⟨some i, p, hnext, hwhole.chain, fun a ha => (hwhole.last a ha).imp_right fun hlast =>
        ⟨hstill, hlast.2⟩⟩
    · obtain ⟨g', p', hnext⟩ := tracks_next h x
      refine ⟨g', p', hnext, hwhole.chain, fun a ha => .inl ?_⟩
      obtain hend | ⟨hprogress, hsame⟩ := hwhole.last a ha
      · exact hend
      · exact absurd ⟨hprogress, a.1, hsame⟩ hopen

theorem whole_run {bs : List (Fin 2 × Beat)} (h : Tracks s g p) (hwhole : Whole s g bs)
    (xs : List Inputs) : (bs ++ handedAlong s xs).IsChain Follows ∧
      takenAlong s xs = (handedAlong s xs).map Prod.snd := by
  induction xs generalizing s g p bs with
  | nil => exact ⟨by simpa [handedAlong] using hwhole.chain, rfl⟩
  | cons x xs ih =>
    obtain ⟨g', p', hnext, hrest⟩ := whole_step h hwhole x
    obtain ⟨hchain, htaken⟩ := ih hnext hrest
    rw [List.append_assoc] at hchain
    refine ⟨hchain, ?_⟩
    rw [takenAlong, handedAlong, taken_eq h, htaken, List.map_append]

/-- In every run the slave takes the beats that the masters hand over, in that order, and the
packets of one master are not broken into by the other. -/
theorem whole_packets (xs : List Inputs) :
    takenAlong reset xs = (handedAlong reset xs).map Prod.snd ∧
      (handedAlong reset xs).IsChain Follows := by
  have hwhole : Whole reset none [] := ⟨.nil, by simp⟩
  obtain ⟨hchain, htaken⟩ := whole_run tracks_reset hwhole xs
  exact ⟨htaken, hchain⟩

/-! ## Waiting -/

/-- The packets of the other master that a waiting one still has to let pass. -/
def rank (g : Option (Fin 2)) (i : Fin 2) : Nat := if g = some i then 0 else 1

/-- The packets that end in a clock. -/
def State.ended (s : State) (x : Inputs) : Nat := ((s.handed x).filter fun a => a.2.ends).length

theorem ended_le (h : Tracks s g p) (x : Inputs) : s.ended x ≤ 1 := by
  refine (List.length_filter_le _ _).trans ?_
  rw [handed_eq h]
  cases g with
  | none => exact Nat.zero_le 1
  | some i =>
    rw [Option.toList_some, List.flatMap_singleton]
    split <;> simp

/-- A packet that ends makes way for a new decision. -/
theorem ended_zero (h : Tracks s g p) {x : Inputs} (hkeep : s.updateGrant x = false) :
    s.ended x = 0 := by
  rw [State.ended, handed_eq h]
  cases g with
  | none => rfl
  | some i =>
    rw [update_some h] at hkeep
    have hopen := (Bool.or_eq_false_iff.mp hkeep).2
    rw [Option.toList_some, List.flatMap_singleton]
    cases hoffers : (x.sink i).valid && x.srcReady with
    | false => rfl
    | true =>
      rw [hoffers, Bool.true_and] at hopen
      simp [hopen]

theorem getLsbD_pair (i : Fin 2) (a b : Bool) :
    (BitVec.ofBool b ++ BitVec.ofBool a).getLsbD i = if i = 0 then a else b := by
  revert i a b
  decide

theorem getLsbD_valid (x : Inputs) (i : Fin 2) : x.valid.getLsbD i = (x.sink i).valid := by
  rw [Inputs.valid, getLsbD_pair]
  fin_cases i <;> rfl

/-- Every packet that ends while a master waits brings its turn nearer. -/
theorem rank_step (h : Tracks s g p) {x : Inputs} {i : Fin 2} (hvalid : (x.sink i).valid = true)
    (hwaits : s.sinkReady x i = false) :
    ∃ g' p', Tracks (s.step x) g' p' ∧ rank g' i + s.ended x ≤ rank g i := by
  by_cases hown : g = some i
  · subst hown
    have hready : x.srcReady = false := by simpa [sinkReady_some h.grant] using hwaits
    have hnone : s.ended x = 0 := by
      rw [State.ended, handed_eq h]
      simp [hready]
    obtain ⟨hnext, -⟩ := kept_step h (.inr hvalid) (by rw [hready, Bool.and_false, Bool.false_and])
    exact ⟨some i, p, hnext, by rw [hnone, Nat.add_zero]⟩
  · have hasks : (s.request x).getLsbD i = true := by
      rw [State.request, BitVec.getLsbD_or, getLsbD_valid, hvalid, Bool.true_or]
    obtain ⟨hkeep, hnext⟩ | ⟨-, hnone, -⟩ | ⟨-, k, hwinner, hnext⟩ := tracks_step h x
    · exact ⟨g, p, hnext, by rw [ended_zero h hkeep, Nat.add_zero]⟩
    · rw [hnone] at hasks
      simp at hasks
    · refine ⟨some k, next 2 k, hnext, ?_⟩
      rw [rank, rank, if_neg hown]
      by_cases hk : k = i
      · have hone := ended_le h x
        rw [if_pos (by rw [hk])]
        omega
      · rw [if_neg fun hsame => hk (Option.some.inj hsame)]
        -- it was not the turn of the waiting master, hence nobody had the grant
        have hnone : g = none := by
          by_contra hsome
          obtain ⟨j, rfl⟩ := Option.ne_none_iff_exists'.mp hsome
          have hji : j ≠ i := fun hsame => hown (by rw [hsame])
          have hturn : p = i := by
            have hp := h.turn j rfl
            unfold next at hp
            split at hp <;> omega
          have hcloser := hwinner.before h.inside i.isLt hasks fun hne => hk (Fin.ext hne)
          rw [hturn, distance_ahead 2 (Nat.le_refl _)] at hcloser
          omega
        have hquiet : s.ended x = 0 := by
          rw [State.ended, handed_eq h, hnone]
          rfl
        omega

/-- A master offers a beat in every clock and is not served. -/
def waits (i : Fin 2) (s : State) : List Inputs → Bool
  | [] => true
  | x :: xs => (x.sink i).valid && !s.sinkReady x i && waits i (s.step x) xs

theorem rank_run (h : Tracks s g p) {i : Fin 2} {xs : List Inputs} (hwaits : waits i s xs = true) :
    ((handedAlong s xs).filter fun a => a.2.ends).length ≤ rank g i := by
  induction xs generalizing s g p with
  | nil => exact Nat.zero_le _
  | cons x xs ih =>
    obtain ⟨hfirst, hlater⟩ := Bool.and_eq_true_iff.mp hwaits
    obtain ⟨hvalid, hready⟩ := Bool.and_eq_true_iff.mp hfirst
    obtain ⟨g', p', hnext, hrank⟩ := rank_step h hvalid (by simpa using hready)
    have hrest := ih hnext hlater
    rw [handedAlong, List.filter_append, List.length_append]
    unfold State.ended at hrank
    omega

theorem tracks_run (h : Tracks s g p) (xs : List Inputs) : ∃ g' p', Tracks (s.run xs) g' p' := by
  induction xs generalizing s g p with
  | nil => exact ⟨g, p, h⟩
  | cons x xs ih =>
    obtain ⟨g', p', hnext⟩ := tracks_next h x
    exact ih hnext

/-- Whenever it begins to wait, a master that offers a beat and is not served sees at most one
packet of the other one end. -/
theorem waits_once (early : List Inputs) {late : List Inputs} {i : Fin 2}
    (hwaits : waits i (reset.run early) late = true) :
    ((handedAlong (reset.run early) late).filter fun a => a.2.ends).length ≤ 1 := by
  obtain ⟨g, p, htracks⟩ := tracks_run tracks_reset early
  refine (rank_run htracks hwaits).trans ?_
  unfold rank
  split <;> omega

/-- Both masters have a packet of one beat. -/
def both : Inputs := ⟨fun _ => ⟨true, ⟨0, 0, true, true⟩⟩, true⟩

theorem waits_once_both :
    ((handedAlong (reset.run []) [both, both]).filter fun a => a.2.ends).length ≤ 1 :=
  waits_once [] (i := 1) (by decide)

end CommandMux
