import Mathlib.Algebra.Order.Ring.Nat
import NiosMenu.CommandMux
import NiosMenu.Firmware

/-!
# The command network

From the two masters of the processor to its seven slaves: the routers decode the address,
the demultiplexers pick the branch, and the multiplexers bring the branches together
again. Every beat arrives in the clock in which it is handed over, at one slave, the one
at its address.
-/
namespace Interconnect

open CommandMux

inductive Slave where
  | jtag
  | sysid
  | debug
  | memory
  | pushButton
  | leds
  | uart
  deriving DecidableEq, Repr

/-! ## The routers -/

/-- {address[RG:PAD], {PAD{1'b0}}} == base, and what is set then. -/
structure Span where
  base : BitVec 17
  pad : Nat
  readOnly : Bool
  channel : BitVec 7
  destId : BitVec 3
  deriving DecidableEq, Repr

def Span.selects (p : Span) (address : BitVec 17) (read : Bool) : Bool :=
  (address >>> p.pad) <<< p.pad == p.base && (read || !p.readOnly)

/-- The comparisons are made one behind the other, and the last one that holds counts. -/
def decode (spans : List Span) (default : BitVec 7 × BitVec 3) (address : BitVec 17)
    (read : Bool) : BitVec 7 × BitVec 3 :=
  spans.foldl (fun out p => if p.selects address read then (p.channel, p.destId) else out) default

/-- nios_mm_interconnect_0_router, for the data master. -/
def routerSpans : List Span := [
  ⟨0x8000, 15, false, 0b0001000, 2⟩,
  ⟨0x10800, 11, false, 0b0000100, 3⟩,
  ⟨0x11020, 5, false, 0b1000000, 6⟩,
  ⟨0x11040, 4, false, 0b0100000, 1⟩,
  ⟨0x11050, 4, true, 0b0010000, 4⟩,
  ⟨0x11060, 3, true, 0b0000010, 5⟩,
  ⟨0x11068, 3, false, 0b0000001, 0⟩]

def router : BitVec 17 → Bool → BitVec 7 × BitVec 3 := decode routerSpans (1 <<< 3, 2)

/-- nios_mm_interconnect_0_router_001, for the instruction master. -/
def router001Spans : List Span := [
  ⟨0x8000, 15, false, 0b010, 2⟩,
  ⟨0x10800, 11, false, 0b001, 3⟩,
  ⟨0x11020, 5, false, 0b100, 6⟩]

def router001 : BitVec 17 → Bool → BitVec 7 × BitVec 3 := decode router001Spans (1 <<< 1, 2)

/-- The slave at an address, for each master; the memory where there is none. -/
def owner (master : Fin 2) (address : Nat) (read : Bool) : Slave :=
  if 0x10800 ≤ address ∧ address < 0x11000 then .debug
  else if 0x11020 ≤ address ∧ address < 0x11040 then .uart
  else if master = dataMaster ∧ 0x11040 ≤ address ∧ address < 0x11050 then .leds
  else if master = dataMaster ∧ 0x11050 ≤ address ∧ address < 0x11060 ∧ read = true then .pushButton
  else if master = dataMaster ∧ 0x11060 ≤ address ∧ address < 0x11068 ∧ read = true then .sysid
  else if master = dataMaster ∧ 0x11068 ≤ address ∧ address < 0x11070 then .jtag
  else .memory

def Slave.destId : Slave → BitVec 3
  | .jtag => 0
  | .leds => 1
  | .memory => 2
  | .debug => 3
  | .pushButton => 4
  | .sysid => 5
  | .uart => 6

/-- The output of cmd_demux that leads to a slave. -/
def Slave.port : Slave → Nat
  | .jtag => 0
  | .sysid => 1
  | .debug => 2
  | .memory => 3
  | .pushButton => 4
  | .leds => 5
  | .uart => 6

/-- The output of cmd_demux_001, if there is one. -/
def Slave.port001 : Slave → Option Nat
  | .debug => some 0
  | .memory => some 1
  | .uart => some 2
  | _ => none

/-- Cutting off the lower bits compares the address with a range. -/
theorem aligned_iff {base : BitVec 17} {pad : Nat} (hbase : 2 ^ pad ∣ base.toNat)
    (address : BitVec 17) : (address >>> pad) <<< pad = base ↔
      base.toNat ≤ address.toNat ∧ address.toNat < base.toNat + 2 ^ pad := by
  have hcut : ((address >>> pad) <<< pad).toNat = address.toNat / 2 ^ pad * 2 ^ pad := by
    have hle := Nat.div_mul_le_self address.toNat (2 ^ pad)
    rw [BitVec.toNat_shiftLeft, BitVec.toNat_ushiftRight, Nat.shiftRight_eq_div_pow,
      Nat.shiftLeft_eq]
    exact Nat.mod_eq_of_lt (lt_of_le_of_lt hle address.isLt)
  have hpos : 0 < 2 ^ pad := Nat.two_pow_pos pad
  obtain ⟨q, hq⟩ := hbase
  rw [← BitVec.toNat_inj, hcut, hq, Nat.mul_comm _ q, Nat.mul_left_inj (by omega),
    Nat.div_eq_iff hpos]
  refine ⟨fun h => ?_, fun h => ?_⟩
  · omega
  · omega

/-- The ranges of a router lie one behind the other, each at a multiple of its length. -/
structure Ordered (spans : List Span) : Prop where
  aligned : ∀ p ∈ spans, 2 ^ p.pad ∣ p.base.toNat
  apart : spans.Pairwise fun p q => p.base.toNat + 2 ^ p.pad ≤ q.base.toNat

theorem routerSpans_ordered : Ordered routerSpans := ⟨by decide, by decide⟩

theorem router001Spans_ordered : Ordered router001Spans := ⟨by decide, by decide⟩

theorem selects_iff {p : Span} (hp : 2 ^ p.pad ∣ p.base.toNat) (address : BitVec 17)
    (read : Bool) : p.selects address read = true ↔
      (p.base.toNat ≤ address.toNat ∧ address.toNat < p.base.toNat + 2 ^ p.pad) ∧
        (p.readOnly = true → read = true) := by
  rw [Span.selects, Bool.and_eq_true, beq_iff_eq, aligned_iff hp]
  cases p.readOnly <;> cases read <;> simp

theorem decode_none {spans : List Span} {address : BitVec 17} {read : Bool}
    (h : ∀ p ∈ spans, p.selects address read = false) (default : BitVec 7 × BitVec 3) :
    decode spans default address read = default := by
  unfold decode
  induction spans with
  | nil => rfl
  | cons p spans ih =>
    obtain ⟨hp, hspans⟩ := List.forall_mem_cons.mp h
    rw [List.foldl_cons, hp]
    exact ih hspans

/-- Only one comparison holds, and it decides. -/
theorem decode_of_mem {spans : List Span} (hordered : Ordered spans) {p : Span} (hp : p ∈ spans)
    {address : BitVec 17} {read : Bool} (hselects : p.selects address read = true)
    (default : BitVec 7 × BitVec 3) :
    decode spans default address read = (p.channel, p.destId) := by
  induction spans generalizing default with
  | nil => cases hp
  | cons q spans ih =>
    obtain ⟨hq, haligned⟩ := List.forall_mem_cons.mp hordered.aligned
    obtain ⟨hbehind, hapart⟩ := List.pairwise_cons.mp hordered.apart
    obtain rfl | hlater := List.mem_cons.mp hp
    · have hrest : ∀ r ∈ spans, r.selects address read = false := by
        intro r hr
        have hlt := ((selects_iff hq _ _).mp hselects).1.2
        have hle := hbehind r hr
        rw [← Bool.not_eq_true, selects_iff (haligned r hr)]
        omega
      rw [decode, List.foldl_cons, hselects]
      exact decode_none hrest _
    · exact ih ⟨haligned, hapart⟩ hlater _

/-- What a router does with an address in one of its ranges, and with any other. -/
theorem decode_range {spans : List Span} (hordered : Ordered spans) {p : Span} (hp : p ∈ spans)
    {address : BitVec 17} {read : Bool}
    (hrange : p.base.toNat ≤ address.toNat ∧ address.toNat < p.base.toNat + 2 ^ p.pad)
    (hread : p.readOnly = true → read = true) (default : BitVec 7 × BitVec 3) :
    decode spans default address read = (p.channel, p.destId) :=
  decode_of_mem hordered hp ((selects_iff (hordered.aligned p hp) _ _).mpr ⟨hrange, hread⟩) default

theorem decode_default {spans : List Span} (hordered : Ordered spans) {address : BitVec 17}
    {read : Bool} (h : ∀ p ∈ spans, p.base.toNat ≤ address.toNat →
      address.toNat < p.base.toNat + 2 ^ p.pad → p.readOnly = true ∧ read = false)
    (default : BitVec 7 × BitVec 3) : decode spans default address read = default := by
  refine decode_none (fun p hp => ?_) default
  rw [← Bool.not_eq_true, selects_iff (hordered.aligned p hp)]
  rintro ⟨⟨hlo, hhi⟩, hread⟩
  obtain ⟨honly, hwrite⟩ := h p hp hlo hhi
  rw [hread honly] at hwrite
  cases hwrite

/-- The data master reaches the slave at its address. -/
theorem router_owner (address : BitVec 17) (read : Bool) :
    router address read = (BitVec.twoPow 7 (owner 0 address.toNat read).port,
      (owner 0 address.toNat read).destId) := by
  have hrange := @decode_range _ routerSpans_ordered
  unfold owner
  split_ifs with hdebug huart hleds hbutton hsysid hjtag
  · exact hrange (p := ⟨0x10800, 11, false, 0b0000100, 3⟩) (by decide) hdebug (by simp) _
  · exact hrange (p := ⟨0x11020, 5, false, 0b1000000, 6⟩) (by decide) huart (by simp) _
  · exact hrange (p := ⟨0x11040, 4, false, 0b0100000, 1⟩) (by decide) hleds.2 (by simp) _
  · exact hrange (p := ⟨0x11050, 4, true, 0b0010000, 4⟩) (by decide)
      ⟨hbutton.2.1, hbutton.2.2.1⟩ (fun _ => hbutton.2.2.2) _
  · exact hrange (p := ⟨0x11060, 3, true, 0b0000010, 5⟩) (by decide)
      ⟨hsysid.2.1, hsysid.2.2.1⟩ (fun _ => hsysid.2.2.2) _
  · exact hrange (p := ⟨0x11068, 3, false, 0b0000001, 0⟩) (by decide) hjtag.2 (by simp) _
  · by_cases hmemory : 0x8000 ≤ address.toNat ∧ address.toNat < 0x8000 + 2 ^ 15
    · exact hrange (p := ⟨0x8000, 15, false, 0b0001000, 2⟩) (by decide) hmemory (by simp) _
    · refine decode_default routerSpans_ordered ?_ _
      cases read <;>
        simp [routerSpans, dataMaster] at hleds hbutton hsysid hjtag ⊢ <;> omega

/-- The instruction master reaches the slave at its address, of the three that it is tied to. -/
theorem router001_owner (address : BitVec 17) (read : Bool) :
    ∃ n, (owner 1 address.toNat read).port001 = some n ∧
      router001 address read = (BitVec.twoPow 7 n, (owner 1 address.toNat read).destId) := by
  have hrange := @decode_range _ router001Spans_ordered
  have hone : (1 : Fin 2) ≠ 0 := by decide
  simp only [owner, hone, false_and, if_false]
  split_ifs with hdebug huart
  · exact ⟨0, rfl, hrange (p := ⟨0x10800, 11, false, 0b001, 3⟩) (by decide) hdebug (by simp) _⟩
  · exact ⟨2, rfl, hrange (p := ⟨0x11020, 5, false, 0b100, 6⟩) (by decide) huart (by simp) _⟩
  · refine ⟨1, rfl, ?_⟩
    by_cases hmemory : 0x8000 ≤ address.toNat ∧ address.toNat < 0x8000 + 2 ^ 15
    · exact hrange (p := ⟨0x8000, 15, false, 0b010, 2⟩) (by decide) hmemory (by simp) _
    · refine decode_default router001Spans_ordered ?_ _
      simp [router001Spans]
      omega

/-! ## The network -/

def address (b : Beat) : BitVec 17 := b.data.extractLsb' 36 17
def read (b : Beat) : Bool := b.data.getLsbD 56

/-- src_data[PKT_DEST_ID_H:PKT_DEST_ID_L] = destId -/
def withDestId (data : BitVec 93) (destId : BitVec 3) : BitVec 93 :=
  (data &&& ~~~(7#93 <<< 77)) ||| (destId.setWidth 93 <<< 77)

def routed (route : BitVec 17 → Bool → BitVec 7 × BitVec 3) (b : Beat) : Beat :=
  { b with
    channel := (route (address b) (read b)).1
    data := withDestId b.data (route (address b) (read b)).2 }

/-- One output of a demultiplexer with `outputs` of them. -/
def demuxed (outputs port : Nat) (k : Sink) : Sink where
  valid := k.beat.channel.getLsbD port && k.valid
  beat := { k.beat with channel := k.beat.channel >>> outputs }

/-- What the masters offer, and which slaves can take something. -/
structure Inputs where
  master : Fin 2 → Sink
  slaveReady : Slave → Bool

/-- cmd_mux_002, cmd_mux_003 and cmd_mux_006; the others only pass their input on. -/
structure State where
  cmdMux002 : CommandMux.State
  cmdMux003 : CommandMux.State
  cmdMux006 : CommandMux.State
  deriving DecidableEq, Repr

def reset : State := ⟨CommandMux.reset, CommandMux.reset, CommandMux.reset⟩

def State.mux (s : State) : Slave → Option CommandMux.State
  | .debug => some s.cmdMux002
  | .memory => some s.cmdMux003
  | .uart => some s.cmdMux006
  | _ => none

/-- The sink of a router or a demultiplexer behind a master. -/
def Inputs.routed (x : Inputs) (route : BitVec 17 → Bool → BitVec 7 × BitVec 3) (i : Fin 2) :
    Sink := ⟨(x.master i).valid, Interconnect.routed route (x.master i).beat⟩

/-- What cmd_demux and cmd_demux_001 offer to a slave. -/
def Inputs.offers (x : Inputs) (k : Slave) (i : Fin 2) : Sink :=
  if i = dataMaster then demuxed 7 k.port (x.routed router dataMaster)
  else k.port001.elim ⟨false, ⟨0, 0, false, false⟩⟩ fun n =>
    demuxed 3 n (x.routed router001 instructionMaster)

def Inputs.muxed (x : Inputs) (k : Slave) : CommandMux.Inputs := ⟨x.offers k, x.slaveReady k⟩

def State.step (s : State) (x : Inputs) : State where
  cmdMux002 := s.cmdMux002.step (x.muxed .debug)
  cmdMux003 := s.cmdMux003.step (x.muxed .memory)
  cmdMux006 := s.cmdMux006.step (x.muxed .uart)

/-- Whether the branch of a master to a slave is ready. -/
def State.branchReady (s : State) (x : Inputs) (i : Fin 2) (k : Slave) : Bool :=
  (s.mux k).elim (x.slaveReady k) fun m => m.sinkReady (x.muxed k) i

def State.readyVector (s : State) (x : Inputs) : BitVec 7 :=
  BitVec.ofBoolListLE ([.jtag, .sysid, .debug, .memory, .pushButton, .leds, .uart].map
    (s.branchReady x dataMaster))

def State.readyVector001 (s : State) (x : Inputs) : BitVec 7 :=
  BitVec.ofBoolListLE (([.debug, .memory, .uart].map (s.branchReady x instructionMaster)) ++
    [false, false, false, false])

/-- sink_ready of the two demultiplexers. -/
def State.ready (s : State) (x : Inputs) (i : Fin 2) : Bool :=
  if i = dataMaster then (x.routed router dataMaster).beat.channel &&& s.readyVector x != 0
  else (x.routed router001 instructionMaster).beat.channel &&& s.readyVector001 x != 0

/-- What a slave is offered. -/
def State.src (s : State) (x : Inputs) (k : Slave) : Sink :=
  (s.mux k).elim (x.offers k dataMaster) fun m => ⟨m.srcValid (x.muxed k), m.src (x.muxed k)⟩

/-- The beats that a slave takes in a clock. -/
def State.taken (s : State) (x : Inputs) (k : Slave) : List Beat :=
  (s.mux k).elim
    (if (x.offers k dataMaster).valid && x.slaveReady k then [(x.offers k dataMaster).beat] else [])
    fun m => m.taken (x.muxed k)

/-- The beats that the masters hand over in a clock. -/
def State.handed (s : State) (x : Inputs) : List (Fin 2 × Beat) :=
  (List.finRange 2).flatMap fun i =>
    if (x.master i).valid && s.ready x i then [(i, (x.master i).beat)] else []

/-! ## One clock -/

/-- The slave that a beat is for, and what that slave gets. -/
def destination (i : Fin 2) (b : Beat) : Slave := owner i (address b).toNat (read b)

def stamped (i : Fin 2) (b : Beat) : Beat :=
  { b with data := withDestId b.data (destination i b).destId, channel := 0 }

variable (s : State) (x : Inputs)

theorem port_shift (k : Slave) : BitVec.twoPow 7 k.port >>> 7 = 0 := by cases k <;> rfl

theorem port001_shift {k : Slave} {n : Nat} (h : k.port001 = some n) :
    BitVec.twoPow 7 n >>> 3 = 0 := by
  cases k <;> cases h <;> rfl

theorem twoPow_any {w n : Nat} (h : n < w) (v : BitVec w) :
    (BitVec.twoPow w n &&& v != 0) = v.getLsbD n := by
  rw [BitVec.twoPow_and]
  cases v.getLsbD n with
  | false => rfl
  | true =>
    rw [if_pos rfl, bne_iff_ne]
    intro hzero
    have hbit := congrArg (fun u => u.getLsbD n) hzero
    simp [h] at hbit

theorem routed_data (b : Beat) : routed router b =
    { b with
      channel := BitVec.twoPow 7 (destination 0 b).port
      data := withDestId b.data (destination 0 b).destId } := by
  rw [routed, router_owner]
  rfl

theorem routed_instruction (b : Beat) : ∃ n, (destination 1 b).port001 = some n ∧
    routed router001 b =
      { b with
        channel := BitVec.twoPow 7 n
        data := withDestId b.data (destination 1 b).destId } := by
  obtain ⟨n, hn, hroute⟩ := router001_owner (address b) (read b)
  refine ⟨n, hn, ?_⟩
  rw [routed, hroute]
  rfl

theorem port_bit (k l : Slave) : (BitVec.twoPow 7 k.port).getLsbD l.port = decide (k = l) := by
  cases k <;> cases l <;> rfl

theorem port001_bit {k l : Slave} {n m : Nat} (hk : k.port001 = some n) (hl : l.port001 = some m) :
    (BitVec.twoPow 7 n).getLsbD m = decide (k = l) := by
  cases k <;> cases hk <;> cases l <;> cases hl <;> rfl

theorem offers_data (k : Slave) : x.offers k 0 =
    ⟨decide (destination 0 (x.master 0).beat = k) && (x.master 0).valid,
      stamped 0 (x.master 0).beat⟩ := by
  rw [Inputs.offers, if_pos rfl, demuxed, Inputs.routed, routed_data, port_bit, port_shift]
  rfl

theorem offers_instruction (k : Slave) :
    (x.offers k 1).valid = (decide (destination 1 (x.master 1).beat = k) && (x.master 1).valid) ∧
    (destination 1 (x.master 1).beat = k → (x.offers k 1).beat = stamped 1 (x.master 1).beat) := by
  have hone : (1 : Fin 2) ≠ 0 := by decide
  obtain ⟨n, hn, hrouted⟩ := routed_instruction (x.master 1).beat
  rw [Inputs.offers, if_neg hone]
  cases hk : k.port001 with
  | none =>
    have hother : destination 1 (x.master 1).beat ≠ k := by
      rintro rfl
      rw [hn] at hk
      cases hk
    simp [hother]
  | some m =>
    rw [Option.elim_some, demuxed, Inputs.routed, hrouted]
    refine ⟨?_, ?_⟩
    · rw [port001_bit hn hk]
    · rintro rfl
      rw [port001_shift hn]
      rfl

theorem offers_valid (k : Slave) (i : Fin 2) : (x.offers k i).valid =
    (decide (destination i (x.master i).beat = k) && (x.master i).valid) := by
  fin_cases i
  · exact congrArg Sink.valid (offers_data x k)
  · exact (offers_instruction x k).1

theorem offers_beat {k : Slave} {i : Fin 2} (h : destination i (x.master i).beat = k) :
    (x.offers k i).beat = stamped i (x.master i).beat := by
  fin_cases i
  · exact congrArg Sink.beat (offers_data x k)
  · exact (offers_instruction x k).2 h

/-- A master is ready when the branch to the destination of its beat is. -/
theorem ready_branch (i : Fin 2) :
    s.ready x i = s.branchReady x i (destination i (x.master i).beat) := by
  fin_cases i
  · change ((x.routed router 0).beat.channel &&& s.readyVector x != 0) = _
    have hlt : (destination 0 (x.master 0).beat).port < 7 := by
      cases destination 0 (x.master 0).beat <;> decide
    rw [Inputs.routed, routed_data]
    refine (twoPow_any hlt _).trans ?_
    rw [State.readyVector, BitVec.getLsbD_ofBoolListLE]
    change _ = s.branchReady x 0 (destination 0 (x.master 0).beat)
    cases destination 0 (x.master 0).beat <;> rfl
  · change ((x.routed router001 1).beat.channel &&& s.readyVector001 x != 0) =
      s.branchReady x 1 (destination 1 (x.master 1).beat)
    obtain ⟨n, hn, hrouted⟩ := routed_instruction (x.master 1).beat
    rw [Inputs.routed, hrouted]
    have hbit : ∀ m, (s.readyVector001 x).getLsbD m =
        (([.debug, .memory, .uart].map (s.branchReady x 1)) ++ [false, false, false, false]).getD
          m false := fun m => BitVec.getLsbD_ofBoolListLE
    generalize destination 1 (x.master 1).beat = k at hn
    cases k <;> cases hn <;> exact (twoPow_any (by decide) _).trans (hbit _)

theorem port001_shared {k : Slave} {n : Nat} (h : k.port001 = some n) : ∃ m, s.mux k = some m := by
  cases k <;> cases h <;> exact ⟨_, rfl⟩

/-- What a master brings to a slave in a clock. -/
def State.brings (s : State) (x : Inputs) (k : Slave) (i : Fin 2) : List Beat :=
  if (x.master i).valid && (decide (destination i (x.master i).beat = k) && s.branchReady x i k)
  then [stamped i (x.master i).beat] else []

theorem handed_brings (k : Slave) :
    ((s.handed x).filter fun a => destination a.1 a.2 = k).map (fun a => stamped a.1 a.2) =
      (List.finRange 2).flatMap (s.brings x k) := by
  rw [State.handed, List.filter_flatMap, List.map_flatMap]
  congr 1
  funext i
  rw [State.brings, ready_branch]
  by_cases hi : destination i (x.master i).beat = k
  · subst hi
    rw [decide_eq_true rfl, Bool.true_and]
    split
    · simp
    · rfl
  · rw [decide_eq_false hi, Bool.false_and, Bool.and_false]
    split
    · simp [hi]
    · rfl

/-- All multiplexers are in a state that they can come to. -/
def Sound (s : State) : Prop := ∀ k m, s.mux k = some m → ∃ g p, Tracks m g p

theorem taken_brings (h : Sound s) (k : Slave) :
    s.taken x k = (List.finRange 2).flatMap (s.brings x k) := by
  have hone : ∀ i, (if (x.offers k i).valid && s.branchReady x i k then [(x.offers k i).beat]
      else []) = s.brings x k i := by
    intro i
    rw [State.brings, offers_valid]
    by_cases hi : destination i (x.master i).beat = k
    · rw [decide_eq_true hi, Bool.true_and, Bool.true_and, offers_beat x hi]
    · simp [hi]
  rw [State.taken]
  cases hk : s.mux k with
  | none =>
    have hrange : List.finRange 2 = [0, 1] := by decide
    have hother : s.brings x k 1 = [] := by
      have hunshared : destination 1 (x.master 1).beat ≠ k := by
        rintro rfl
        obtain ⟨n, hn, -⟩ := routed_instruction (x.master 1).beat
        obtain ⟨m, hm⟩ := port001_shared s hn
        rw [hk] at hm
        cases hm
      rw [State.brings, decide_eq_false hunshared, Bool.false_and, Bool.and_false]
      rfl
    have hready : s.branchReady x 0 k = x.slaveReady k := by rw [State.branchReady, hk]; rfl
    have hfirst := hone 0
    rw [hready] at hfirst
    rw [Option.elim_none, hfirst, hrange]
    simp [hother]
  | some m =>
    obtain ⟨g, p, htracks⟩ := h k m hk
    have hready : ∀ i, s.branchReady x i k = m.sinkReady (x.muxed k) i := by
      intro i
      rw [State.branchReady, hk]
      rfl
    rw [Option.elim_some, taken_eq htracks, CommandMux.State.handed, List.map_flatMap]
    congr 1
    funext i
    rw [← hone i, hready, Inputs.muxed]
    split <;> rfl

/-- A slave that only the data master is tied to. -/
theorem destination_data {k : Slave} (hk : s.mux k = none) {i : Fin 2} {b : Beat}
    (hi : destination i b = k) : i = 0 := by
  fin_cases i
  · rfl
  · obtain ⟨n, hn, -⟩ := routed_instruction b
    rw [show destination 1 b = k from hi] at hn
    obtain ⟨m, hm⟩ := port001_shared s hn
    rw [hk] at hm
    cases hm

theorem src_ready (f : Slave → Bool) (k : Slave) : s.src ⟨x.master, f⟩ k = s.src x k := by
  cases k <;> rfl

/-- A slave is offered what one master has for it, and it alone can hand that over; or nobody
can hand over anything to it. -/
theorem src_serves (h : Sound s) (k : Slave) :
    (∃ i, (x.master i).valid = true ∧ destination i (x.master i).beat = k ∧
      s.src x k = ⟨true, stamped i (x.master i).beat⟩ ∧
      ∀ j, destination j (x.master j).beat = k →
        s.ready x j = (x.slaveReady k && decide (j = i))) ∨
    ((s.src x k).valid = false ∧ ∀ j, (x.master j).valid = true →
      destination j (x.master j).beat = k → s.ready x j = false) := by
  cases hk : s.mux k with
  | none =>
    have hsrc : s.src x k = x.offers k 0 := by rw [State.src, hk, Option.elim_none]
    have hready : ∀ j, destination j (x.master j).beat = k → s.ready x j = x.slaveReady k := by
      intro j hj
      rw [ready_branch, hj, State.branchReady, hk, Option.elim_none]
    rw [hsrc, offers_data]
    by_cases hzero : destination 0 (x.master 0).beat = k ∧ (x.master 0).valid = true
    · refine .inl ⟨0, hzero.2, hzero.1, by rw [hzero.2, decide_eq_true hzero.1]; rfl, ?_⟩
      intro j hj
      rw [hready j hj, decide_eq_true (destination_data s hk hj), Bool.and_true]
    · refine .inr ⟨?_, ?_⟩
      · simpa using hzero
      · intro j hvalid hj
        obtain rfl := destination_data s hk hj
        exact absurd ⟨hj, hvalid⟩ hzero
  | some m =>
    obtain ⟨g, p, htracks⟩ := h k m hk
    have hgrant := htracks.grant
    have hsrc : s.src x k = ⟨m.srcValid (x.muxed k), m.src (x.muxed k)⟩ := by
      rw [State.src, hk, Option.elim_some]
    have hready : ∀ j, destination j (x.master j).beat = k →
        s.ready x j = m.sinkReady (x.muxed k) j := by
      intro j hj
      rw [ready_branch, hj, State.branchReady, hk, Option.elim_some]
    rw [hsrc]
    cases g with
    | none =>
      refine .inr ⟨srcValid_none hgrant _, fun j _ hj => ?_⟩
      rw [hready j hj, CommandMux.State.sinkReady, hgrant]
      simp
    | some i =>
      have hvalid : m.srcValid (x.muxed k) = (x.offers k i).valid :=
        srcValid_some hgrant (x.muxed k)
      rw [offers_valid] at hvalid
      have hgranted : ∀ j, destination j (x.master j).beat = k →
          s.ready x j = (x.slaveReady k && decide (j = i)) := by
        intro j hj
        rw [hready j hj, sinkReady_some hgrant]
        rfl
      by_cases hi : destination i (x.master i).beat = k ∧ (x.master i).valid = true
      · refine .inl ⟨i, hi.2, hi.1, ?_, hgranted⟩
        rw [hvalid, src_some hgrant, decide_eq_true hi.1, hi.2]
        exact congrArg (Sink.mk true) (offers_beat x hi.1)
      · refine .inr ⟨?_, fun j hj hto => ?_⟩
        · rw [hvalid]
          simpa using hi
        · have hother : j ≠ i := by
            rintro rfl
            exact hi ⟨hto, hj⟩
          rw [hgranted j hto, decide_eq_false hother, Bool.and_false]

theorem offers_congr {y : Inputs} {i : Fin 2} (h : y.master i = x.master i) (k : Slave) :
    y.offers k i = x.offers k i := by
  have hrouted : ∀ route, y.routed route i = x.routed route i := by
    intro route
    rw [Inputs.routed, Inputs.routed, h]
  rw [Inputs.offers, Inputs.offers]
  by_cases hi : i = dataMaster
  · subst hi
    rw [if_pos rfl, if_pos rfl, hrouted]
  · obtain rfl := Fin.eq_one_of_ne_zero i hi
    rw [if_neg hi, if_neg hi]
    exact congrArg _ (funext fun n => congrArg (demuxed 3 n) (hrouted router001))

theorem mux_step (k : Slave) :
    (s.step x).mux k = (s.mux k).map fun m => m.step (x.muxed k) := by
  cases k <;> rfl

/-- What a slave is offered stays until it is taken, if the master keeps it. -/
theorem src_keeps (h : Sound s) {k : Slave} (hvalid : (s.src x k).valid = true)
    (hwait : x.slaveReady k = false) {y : Inputs}
    (hy : ∀ i, (x.master i).valid = true → s.ready x i = false → y.master i = x.master i) :
    (s.step x).src y k = s.src x k := by
  have hkept : ∀ i, (x.offers k i).valid = true → s.branchReady x i k = false →
      y.offers k i = x.offers k i := by
    intro i hoffers hbranch
    rw [offers_valid, Bool.and_eq_true_iff, decide_eq_true_iff] at hoffers
    obtain ⟨hk, hmaster⟩ := hoffers
    refine offers_congr x (hy i hmaster ?_) k
    rw [ready_branch, hk, hbranch]
  cases hk : s.mux k with
  | none =>
    have hsrc : s.src x k = x.offers k 0 := by rw [State.src, hk, Option.elim_none]
    have hbranch : s.branchReady x 0 k = false := by
      rw [State.branchReady, hk, Option.elim_none, hwait]
    rw [hsrc] at hvalid ⊢
    rw [State.src, mux_step, hk]
    exact hkept 0 hvalid hbranch
  | some m =>
    obtain ⟨g, p, htracks⟩ := h k m hk
    have hsrc : s.src x k = ⟨m.srcValid (x.muxed k), m.src (x.muxed k)⟩ := by
      rw [State.src, hk, Option.elim_some]
    rw [hsrc] at hvalid ⊢
    cases g with
    | none =>
      rw [show m.srcValid (x.muxed k) = false from srcValid_none htracks.grant _] at hvalid
      cases hvalid
    | some i =>
      rw [show m.srcValid (x.muxed k) = (x.offers k i).valid from srcValid_some htracks.grant _]
        at hvalid ⊢
      have hbranch : s.branchReady x i k = false := by
        rw [State.branchReady, hk, Option.elim_some, CommandMux.State.sinkReady, Inputs.muxed,
          hwait, Bool.false_and]
      have hopen : ((x.offers k i).valid && x.slaveReady k && (x.offers k i).beat.ends) =
          false := by
        rw [hwait, Bool.and_false, Bool.false_and]
      obtain ⟨hnext, -⟩ := kept_step (x := x.muxed k) htracks (.inr hvalid) hopen
      rw [State.src, mux_step, hk, Option.map_some, Option.elim_some, srcValid_some hnext.grant,
        src_some hnext.grant, src_some htracks.grant]
      change Sink.mk (y.offers k i).valid (y.offers k i).beat = ⟨_, (x.offers k i).beat⟩
      rw [hkept i hvalid hbranch]

theorem sound_reset : Sound reset := by
  intro k m hm
  cases k <;> cases hm <;> exact ⟨none, 0, tracks_reset⟩

theorem sound_step (h : Sound s) : Sound (s.step x) := by
  have hnext : ∀ k m, s.mux k = some m → ∃ g p, Tracks (m.step (x.muxed k)) g p := by
    intro k m hm
    obtain ⟨g, p, htracks⟩ := h k m hm
    exact tracks_next htracks _
  intro k m hm
  cases k <;> cases hm
  · exact hnext .debug _ rfl
  · exact hnext .memory _ rfl
  · exact hnext .uart _ rfl

/-! ## Runs -/

def takenAlong (k : Slave) (s : State) : List Inputs → List Beat
  | [] => []
  | x :: xs => s.taken x k ++ takenAlong k (s.step x) xs

def handedAlong (s : State) : List Inputs → List (Fin 2 × Beat)
  | [] => []
  | x :: xs => s.handed x ++ handedAlong (s.step x) xs

theorem taken_handed {s : State} (h : Sound s) (xs : List Inputs) (k : Slave) :
    takenAlong k s xs = ((handedAlong s xs).filter fun a => destination a.1 a.2 = k).map
      fun a => stamped a.1 a.2 := by
  induction xs generalizing s with
  | nil => rfl
  | cons x xs ih =>
    rw [takenAlong, handedAlong, List.filter_append, List.map_append, ih (sound_step s x h),
      taken_brings s x h, handed_brings]

/-- Whatever the masters offer and whenever the slaves are ready: every slave takes the beats
for its addresses, at any time all that were handed over, in that order, and changed in the
destination and the channel only. -/
theorem commands_delivered (xs : List Inputs) (k : Slave) :
    takenAlong k reset xs = ((handedAlong reset xs).filter fun a => destination a.1 a.2 = k).map
      fun a => stamped a.1 a.2 := taken_handed sound_reset xs k

/-! ## The program on the network -/

open Firmware

def UART_0_BASE : Nat := 0x11020
def LEDS_BASE : Nat := 0x11040
def PUSHBUTTON_BASE : Nat := 0x11050
def JTAG_BASE : Nat := 0x11068

/-- IORD and IOWR of the program: the address, and whether it is a read. -/
def access : Event → Option (Nat × Bool)
  | .rxdata _ => some (UART_0_BASE + 4 * 0, true)
  | .act (.txdata _) => some (UART_0_BASE + 4 * 1, false)
  | .status _ => some (UART_0_BASE + 4 * 2, true)
  | .act (.leds _) => some (LEDS_BASE + 4 * 0, false)
  | .button _ => some (PUSHBUTTON_BASE + 4 * 0, true)
  | .act (.jtagData _) => some (JTAG_BASE + 4 * 0, false)
  | .jtagControl _ => some (JTAG_BASE + 4 * 1, true)
  | _ => none

/-- The device that the program means. -/
def device : Event → Option Slave
  | .rxdata _ | .act (.txdata _) | .status _ => some .uart
  | .act (.leds _) => some .leds
  | .button _ => some .pushButton
  | .act (.jtagData _) | .jtagControl _ => some .jtag
  | _ => none

theorem device_owner (e : Event) : device e = (access e).map fun q => owner 0 q.1 q.2 := by
  cases e with
  | act a => cases a <;> rfl
  | _ => rfl

/-- What a slave sees of a beat. -/
def seen (b : Beat) : Nat × Bool := ((address b).toNat, read b)

theorem getLsbD_withDestId (data : BitVec 93) (destId : BitVec 3) {i : Nat} (hi : i < 77) :
    (withDestId data destId).getLsbD i = data.getLsbD i := by
  rw [withDestId, BitVec.getLsbD_or, BitVec.getLsbD_and, BitVec.getLsbD_not,
    BitVec.getLsbD_shiftLeft, BitVec.getLsbD_shiftLeft]
  simp [hi, show i < 93 by omega]

theorem seen_stamped (i : Fin 2) (b : Beat) : seen (stamped i b) = seen b := by
  have haddress : address (stamped i b) = address b := by
    apply BitVec.eq_of_getLsbD_eq
    intro j hj
    rw [address, address, BitVec.getLsbD_extractLsb', BitVec.getLsbD_extractLsb', stamped,
      getLsbD_withDestId _ _ (by omega)]
  have hread : read (stamped i b) = read b := getLsbD_withDestId _ _ (by omega)
  rw [seen, haddress, hread, seen]

/-- The devices, as opposed to the memory and the debugger. -/
def Slave.io (k : Slave) : Bool := k != .memory && k != .debug

theorem filter_access (es : List Event) (k : Slave) :
    (es.filterMap access).filter (fun q => owner 0 q.1 q.2 = k) =
      (es.filter fun e => device e = some k).filterMap access := by
  induction es with
  | nil => rfl
  | cons e es ih =>
    rw [List.filterMap_cons, List.filter_cons, device_owner]
    cases haccess : access e with
    | none => simpa using ih
    | some q =>
      by_cases hq : owner 0 q.1 q.2 = k
      · simp [hq, haccess, ih]
      · simp [hq, ih]

/-- Where the accesses of the program are what the network gets for the devices, each device
takes those that are meant for it, all of them and in order. -/
theorem program_delivered {xs : List Inputs} {es : List Event}
    (hprogram : ((handedAlong reset xs).filter fun a => (destination a.1 a.2).io).map
      (fun a => (a.1, seen a.2)) = (es.filterMap access).map fun q => (0, q))
    {k : Slave} (hk : k.io = true) :
    (takenAlong k reset xs).map seen = (es.filter fun e => device e = some k).filterMap access := by
  have hio : (handedAlong reset xs).filter (fun a => destination a.1 a.2 = k) =
      ((handedAlong reset xs).filter fun a => (destination a.1 a.2).io).filter
        fun a => destination a.1 a.2 = k := by
    rw [List.filter_filter]
    congr 1
    funext a
    by_cases ha : destination a.1 a.2 = k
    · rw [ha, hk, Bool.and_true]
    · simp [ha]
  calc (takenAlong k reset xs).map seen
      = ((((handedAlong reset xs).filter fun a => (destination a.1 a.2).io).map
          fun a => (a.1, seen a.2)).filter fun t => owner t.1 t.2.1 t.2.2 = k).map Prod.snd := by
        rw [taken_handed sound_reset, hio, List.map_map, List.filter_map, List.map_map]
        congr 1
        funext a
        exact seen_stamped a.1 a.2
    _ = (es.filterMap access).filter fun q => owner 0 q.1 q.2 = k := by
        rw [hprogram, List.filter_map, List.map_map]
        exact List.map_id _
    _ = (es.filter fun e => device e = some k).filterMap access := filter_access es k

/-- A read of STATUS while the instruction master fetches from the memory. -/
def statusAndFetch : Inputs where
  master i :=
    ⟨true,
      ⟨(if i = dataMaster then 0x11028#93 else 0x8000#93) <<< 36 ||| 1#93 <<< 56, 0, true, true⟩⟩
  slaveReady _ := true

theorem program_delivered_status :
    (takenAlong .uart reset [statusAndFetch, statusAndFetch]).map seen =
      ([Event.status 0x60].filter fun e => device e = some .uart).filterMap access :=
  program_delivered (by decide +kernel) rfl

end Interconnect
