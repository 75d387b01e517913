import NiosMenu.SlavePort

/-!
# The bus of the processor

The ports of the processor, the command network, the ports of the devices and the way
back, clock by clock. Every device answers a read in the clock behind, a master has one
command accepted in a clock, and so the answers of two devices never meet, although the
multiplexers on the way back do not arbitrate.
-/
namespace Avalon

open CommandMux Interconnect MasterPort SlavePort

structure Inputs where
  master : Fin 2 → Request
  device : Slave → Device

structure State where
  master : Fin 2 → MasterPort.State
  network : Interconnect.State
  slave : Slave → SlavePort.State

def reset : State := ⟨fun _ => MasterPort.reset, Interconnect.reset, fun _ => SlavePort.reset⟩

/-! ## The way there -/

def State.sinks (s : State) (x : Inputs) (i : Fin 2) : Sink :=
  (s.master i).command (port i) (x.master i)

/-- What the network offers to a device, whether that is ready or not. -/
def State.cp (s : State) (x : Inputs) (k : Slave) : Sink :=
  s.network.src ⟨s.sinks x, fun _ => false⟩ k

def State.cpReady (s : State) (x : Inputs) (k : Slave) : Bool :=
  (s.slave k).cpReady (timing k) (s.cp x k) (x.device k)

def State.commands (s : State) (x : Inputs) : Interconnect.Inputs := ⟨s.sinks x, s.cpReady x⟩

def State.ready (s : State) (x : Inputs) (i : Fin 2) : Bool := s.network.ready (s.commands x) i

/-! ## The way back -/

def State.rp (s : State) (x : Inputs) (k : Slave) : Sink := (s.slave k).rp (timing k) (x.device k)

/-- router_002, or router_004 at the devices with two masters. -/
def responseChannel (k : Slave) (d : BitVec 93) : BitVec 7 :=
  if k.port001.isSome && destId d == 1 && d.getLsbD 56 then 0b10 else 1

/-- An output of rsp_demux or rsp_demux_002. -/
def State.rspValid (s : State) (x : Inputs) (k : Slave) (i : Fin 2) : Bool :=
  (responseChannel k (s.rp x k).beat.data).getLsbD i && (s.rp x k).valid

/-- The devices that are tied to a master. -/
def sources (i : Fin 2) : List Slave :=
  if i = dataMaster then [.jtag, .sysid, .debug, .memory, .pushButton, .leds, .uart]
  else [.debug, .memory, .uart]

/-- rsp_mux and rsp_mux_001: requests are wired to grants, and all that is granted is put
together. -/
def State.readdatavalid (s : State) (x : Inputs) (i : Fin 2) : Bool :=
  (sources i).any fun k => s.rspValid x k i

def State.readdata (s : State) (x : Inputs) (i : Fin 2) : BitVec 32 :=
  (sources i).foldr (fun k d =>
    ((s.rp x k).beat.masked (s.rspValid x k i)).data.extractLsb' 0 32 ||| d) 0

/-- sink_ready of a demultiplexer; the masters are always ready for a response. -/
def State.rpReady (s : State) (x : Inputs) (k : Slave) : Bool :=
  let channel := responseChannel k (s.rp x k).beat.data
  (channel.getLsbD 0 && s.rspValid x k dataMaster) ||
    (k.port001.isSome && channel.getLsbD 1 && s.rspValid x k instructionMaster)

def State.step (s : State) (x : Inputs) : State where
  master i := (s.master i).step (port i) (x.master i) (s.ready x i) (s.readdatavalid x i)
  network := s.network.step (s.commands x)
  slave k := (s.slave k).step (timing k) (s.cp x k) (x.device k) (s.rpReady x k)

/-! ## Transfers -/

/-- An access with its outcome. -/
inductive Access where
  | read (address : Nat) (data : BitVec 32)
  | write (address : Nat) (byteenable : BitVec 4) (data : BitVec 32)
  deriving DecidableEq, Repr

structure Transfer where
  master : Fin 2
  slave : Slave
  access : Access
  deriving DecidableEq, Repr

def State.accepts (s : State) (x : Inputs) (i : Fin 2) : Bool :=
  (s.master i).accepts (port i) (x.master i) (s.ready x i)

def State.waitrequest (s : State) (x : Inputs) (i : Fin 2) : Bool :=
  (s.master i).avWaitrequest (port i) (x.master i) (s.ready x i) (s.readdatavalid x i)

def State.completes (s : State) (x : Inputs) (i : Fin 2) : Bool :=
  (s.master i).completes (port i) (x.master i) (s.ready x i) (s.readdatavalid x i)

/-- An access that the processor asks for, where a read gets the given data. -/
def access (r : Request) (data : BitVec 32) : Access :=
  if r.read then .read r.address.toNat data else .write r.address.toNat r.byteenable r.writedata

/-- The accesses that end for the processor in a clock. -/
def State.completed (s : State) (x : Inputs) (i : Fin 2) : List Access :=
  if s.completes x i then [access (x.master i) (s.readdata x i)] else []

/-- The master that a command comes from. -/
def source (b : Beat) : Fin 2 :=
  if srcId b.data = 0 then dataMaster else instructionMaster

/-- What a device gives for a read: the data on its lines in the clock in which the transfer
ends, or in the next one for the memory. -/
def given (k : Slave) (x : Inputs) (y : Option Inputs) : BitVec 32 :=
  if (timing k).readLatency = 0 then (x.device k).readdata
  else y.elim 0 fun y => (y.device k).readdata

/-- The transfers that end at the devices in a clock. -/
def State.served (s : State) (x : Inputs) (y : Option Inputs) (k : Slave) : List Transfer :=
  let g := (s.slave k).signals (timing k) (s.cp x k)
  if (s.slave k).ends (timing k) (s.cp x k) (x.device k) then
    [⟨source (s.cp x k).beat, k,
      if (s.slave k).uavRead (s.cp x k) then .read g.address (given k x y)
      else .write g.address g.byteenable g.writedata⟩]
  else []

def slaves : List Slave := [.jtag, .sysid, .debug, .memory, .pushButton, .leds, .uart]

def servedAlong (s : State) : List Inputs → List Transfer
  | [] => []
  | x :: xs => slaves.flatMap (s.served x xs.head?) ++ servedAlong (s.step x) xs

def completedAlong (i : Fin 2) (s : State) : List Inputs → List Access
  | [] => []
  | x :: xs => s.completed x i ++ completedAlong i (s.step x) xs

/-- An access of the processor, as the device at its address gets it: the address is that of
a word in the device. -/
def carried (i : Fin 2) : Access → Transfer
  | .read a d =>
    let k := owner i a true
    ⟨i, k, .read (a / 4 % 2 ^ (timing k).addressWidth) d⟩
  | .write a e d =>
    let k := owner i a false
    ⟨i, k, .write (a / 4 % 2 ^ (timing k).addressWidth) e d⟩

/-- The processor reads or writes, but not both, and holds an access while it has to wait. -/
def Inputs.proper (x : Inputs) : Prop := ∀ i, ((x.master i).read && (x.master i).write) = false

def State.holds (s : State) (x y : Inputs) : Prop :=
  ∀ i, ((x.master i).read || (port i).writePre (x.master i)) = true → s.waitrequest x i = true →
    y.master i = x.master i

def holdsAlong (s : State) : List Inputs → Prop
  | [] => True
  | x :: xs => x.proper ∧ (∀ y ∈ xs.head?, s.holds x y) ∧ holdsAlong (s.step x) xs

instance decidableProper (x : Inputs) : Decidable x.proper :=
  inferInstanceAs (Decidable (∀ _, _ = false))

instance decidableHolds (s : State) (x y : Inputs) : Decidable (s.holds x y) :=
  inferInstanceAs (Decidable (∀ i, ((x.master i).read || (port i).writePre (x.master i)) = true →
    s.waitrequest x i = true → y.master i = x.master i))

instance decidableHoldsAlong : (s : State) → (xs : List Inputs) → Decidable (holdsAlong s xs)
  | _, [] => isTrue trivial
  | s, x :: xs =>
    have := decidableHoldsAlong (s.step x) xs
    inferInstanceAs (Decidable (x.proper ∧ (∀ y ∈ xs.head?, s.holds x y) ∧
      holdsAlong (s.step x) xs))

/-! ## One clock there -/

variable {s : State} {x : Inputs}

theorem cp_eq (k : Slave) : s.cp x k = s.network.src (s.commands x) k :=
  src_ready s.network (s.commands x) (fun _ => false) k

def State.takes (s : State) (x : Inputs) (k : Slave) : Bool :=
  (s.slave k).takes (timing k) (s.cp x k) (x.device k)

/-- The device that a command goes to. -/
def State.destination (s : State) (x : Inputs) (i : Fin 2) : Slave :=
  Interconnect.destination i (s.sinks x i).beat

/-- A device is offered the command of one master, and takes it when that is handed over. -/
theorem cp_serves (h : Sound s.network) (k : Slave) :
    (∃ i, (s.sinks x i).valid = true ∧ s.destination x i = k ∧
      s.cp x k = ⟨true, stamped i (s.sinks x i).beat⟩ ∧
      ∀ j, s.destination x j = k → s.ready x j = (s.cpReady x k && decide (j = i))) ∨
    ((s.cp x k).valid = false ∧ ∀ j, (s.sinks x j).valid = true → s.destination x j = k →
      s.ready x j = false) := by
  rw [cp_eq]
  exact src_serves s.network (s.commands x) h k

theorem takes_accepts (h : Sound s.network) {k : Slave} (htakes : s.takes x k = true) :
    ∃ i, s.accepts x i = true ∧ s.destination x i = k ∧
      s.cp x k = ⟨true, stamped i (s.sinks x i).beat⟩ := by
  obtain ⟨hvalid, hready⟩ := Bool.and_eq_true_iff.mp htakes
  obtain ⟨i, hi, hk, hcp, hj⟩ | ⟨hnone, -⟩ := cp_serves (x := x) h k
  · refine ⟨i, ?_, hk, hcp⟩
    have hown : s.ready x i = true := by
      rw [hj i hk, decide_eq_true rfl, Bool.and_true]
      exact hready
    exact Bool.and_eq_true_iff.mpr ⟨hi, hown⟩
  · rw [hnone] at hvalid
    cases hvalid

theorem accepts_takes (h : Sound s.network) {i : Fin 2} (haccepts : s.accepts x i = true) :
    s.takes x (s.destination x i) = true ∧
      s.cp x (s.destination x i) = ⟨true, stamped i (s.sinks x i).beat⟩ := by
  obtain ⟨hvalid, hready⟩ := Bool.and_eq_true_iff.mp haccepts
  obtain ⟨k, -, -, hcp, hj⟩ | ⟨-, hnone⟩ := cp_serves (x := x) h (s.destination x i)
  · rw [hj i rfl] at hready
    obtain ⟨hdevice, hi⟩ := Bool.and_eq_true_iff.mp hready
    obtain rfl := of_decide_eq_true hi
    exact ⟨Bool.and_eq_true_iff.mpr ⟨by rw [hcp], hdevice⟩, hcp⟩
  · rw [hnone i hvalid rfl] at hready
    cases hready

/-- The fields of a command below the destination are those that the port gave it. -/
theorem getLsbD_stamped (i : Fin 2) (b : Beat) {n : Nat} (hn : n < 77) :
    (stamped i b).data.getLsbD n = b.data.getLsbD n := getLsbD_withDestId _ _ hn

theorem extract_stamped (i : Fin 2) (b : Beat) {start len : Nat} (h : start + len ≤ 77) :
    (stamped i b).data.extractLsb' start len = b.data.extractLsb' start len := by
  apply BitVec.eq_of_getLsbD_eq
  intro n hn
  rw [BitVec.getLsbD_extractLsb', BitVec.getLsbD_extractLsb', getLsbD_stamped i b (by omega)]

section Command

variable (s x) (i : Fin 2)

theorem read_stamped : Interconnect.read (stamped i (s.sinks x i).beat) =
    (s.master i).uavRead (x.master i) :=
  (getLsbD_stamped i _ (by decide)).trans (read_cpData _ _ _ _)

theorem write_stamped : write (stamped i (s.sinks x i).beat).data =
    (s.master i).uavWrite (port i) (x.master i) :=
  (getLsbD_stamped i _ (by decide)).trans (write_cpData _ _ _ _)

theorem address_sinks : address (s.sinks x i).beat = (x.master i).aligned :=
  address_cpData _ _ _ _

theorem address_stamped : address (stamped i (s.sinks x i).beat) = (x.master i).aligned :=
  (extract_stamped i _ (by decide)).trans (address_sinks s x i)

theorem byteenable_stamped :
    byteenable (stamped i (s.sinks x i).beat).data = (x.master i).byteenable :=
  (extract_stamped i _ (by decide)).trans (byteenable_cpData _ _ _ _)

theorem writedata_stamped :
    writedata (stamped i (s.sinks x i).beat).data = (x.master i).writedata :=
  (extract_stamped i _ (by decide)).trans (writedata_cpData _ _ _ _)

theorem srcId_stamped : srcId (stamped i (s.sinks x i).beat).data = (port i).id :=
  (extract_stamped i _ (by decide)).trans (srcId_cpData _ _ _ _)

theorem source_stamped : source (stamped i (s.sinks x i).beat) = i := by
  rw [source, srcId_stamped]
  fin_cases i <;> rfl

theorem destination_eq : s.destination x i =
    owner i (x.master i).aligned.toNat ((s.master i).uavRead (x.master i)) := by
  rw [State.destination, Interconnect.destination, address_sinks]
  congr 1
  exact read_cpData _ _ _ _

theorem proper_stamped (hvalid : (s.sinks x i).valid = true) :
    Proper ⟨true, stamped i (s.sinks x i).beat⟩ where
  compressed := (getLsbD_stamped i _ (by decide)).trans (compressed_cpData _ _ _ _)
  posted := by
    have hposted : posted (stamped i (s.sinks x i).beat).data =
        (s.master i).uavWrite (port i) (x.master i) :=
      (getLsbD_stamped i _ (by decide)).trans (posted_cpData _ _ _ _)
    exact hposted.trans (write_stamped s x i).symm
  some := by
    obtain hw | hr := Bool.or_eq_true_iff.mp (Bool.and_eq_true_iff.mp hvalid).1
    · exact .inr ((write_stamped s x i).trans hw)
    · exact .inl ((read_stamped s x i).trans hr)

end Command

theorem proper_cp (h : Sound s.network) (k : Slave) (hvalid : (s.cp x k).valid = true) :
    Proper (s.cp x k) := by
  obtain ⟨i, hi, -, hcp, -⟩ | ⟨hnone, -⟩ := cp_serves (x := x) h k
  · rw [hcp]
    exact proper_stamped s x i hi
  · rw [hnone] at hvalid
    cases hvalid

theorem sources_port001 {k : Slave} {n : Nat} (h : k.port001 = some n) (i : Fin 2) :
    k ∈ sources i := by
  fin_cases i <;> cases k <;> cases h <;> decide

/-- The devices that a master reaches are those that answer to it. -/
theorem mem_sources (i : Fin 2) : s.destination x i ∈ sources i := by
  fin_cases i
  · change s.destination x 0 ∈ [Slave.jtag, .sysid, .debug, .memory, .pushButton, .leds, .uart]
    cases s.destination x 0 <;> decide
  · obtain ⟨n, hn, -⟩ := routed_instruction (s.sinks x 1).beat
    exact sources_port001 hn 1

/-! ## Reads on their way -/

/-- The reads that the devices have accepted and not answered yet, with the masters that wait
for them: never two for one master. -/
structure Inv (s : State) (o : Slave → Option (Fin 2 × Stored)) : Prop where
  sound : Sound s.network
  answers : ∀ k, Answers (s.slave k) ((o k).map Prod.snd)
  owed : ∀ k i d, o k = some (i, d) →
    srcId d.packet = (port i).id ∧ d.packet.getLsbD 56 = true ∧ k ∈ sources i
  alone : ∀ k k' i d d', o k = some (i, d) → o k' = some (i, d') → k = k'
  accepted : ∀ i, (s.master i).readAccepted = true ↔ ∃ k d, o k = some (i, d)
  start : ∀ i k,
    (s.slave k).translator.waitrequestResetOverride = true → (s.master i).holdWaitrequest = true

variable {o : Slave → Option (Fin 2 × Stored)}

theorem inv_reset : Inv reset fun _ => none where
  sound := sound_reset
  answers _ := answers_reset
  owed k i d h := by cases h
  alone k k' i d d' h := by cases h
  accepted i := by simp [reset, MasterPort.reset]
  start i k _ := rfl

/-- An answer goes to the master that waits for it. -/
theorem rspValid_eq (h : Inv s o) (k : Slave) (i : Fin 2) :
    s.rspValid x k i = decide ((o k).map Prod.fst = some i) := by
  have hanswers := h.answers k
  cases ho : o k with
  | none =>
    rw [ho] at hanswers
    rw [State.rspValid, State.rp, valid_rp hanswers]
    simp
  | some a =>
    obtain ⟨j, d⟩ := a
    rw [ho] at hanswers
    obtain ⟨hid, hread, hsource⟩ := h.owed k j d ho
    have hplain := (hanswers.plain d rfl).2
    have hdest : destId (s.rp x k).beat.data = (port j).id := by
      rw [← hid]
      exact (destId_rpData _ _ _).trans (by rw [rfSink_some hanswers])
    have hbit : (s.rp x k).beat.data.getLsbD 56 = true :=
      (read_rpData _ _ _).trans (by rw [rfSink_some hanswers, hread, hplain]; rfl)
    have hchannel : responseChannel k (s.rp x k).beat.data = BitVec.twoPow 7 j := by
      rw [responseChannel, hdest, hbit]
      fin_cases j
      · cases k <;> rfl
      · cases k <;> first | rfl | exact absurd hsource (by decide)
    rw [State.rspValid, hchannel, State.rp, valid_rp hanswers]
    fin_cases i <;> fin_cases j <;> rfl

theorem readdatavalid_eq (h : Inv s o) (i : Fin 2) :
    s.readdatavalid x i = (s.master i).readAccepted := by
  rw [Bool.eq_iff_iff, h.accepted, State.readdatavalid, List.any_eq_true]
  constructor
  · rintro ⟨k, -, hk⟩
    rw [rspValid_eq h, decide_eq_true_iff] at hk
    obtain ⟨⟨j, d⟩, ho, rfl⟩ := Option.map_eq_some_iff.mp hk
    exact ⟨k, d, ho⟩
  · rintro ⟨k, d, ho⟩
    refine ⟨k, (h.owed k i d ho).2.2, ?_⟩
    rw [rspValid_eq h, ho]
    simp

theorem rpReady_eq (h : Inv s o) {k : Slave} (ho : (o k).isSome = true) :
    s.rpReady x k = true := by
  obtain ⟨⟨i, d⟩, ho⟩ := Option.isSome_iff_exists.mp ho
  have hvalid : s.rspValid x k i = true := by
    rw [rspValid_eq h, ho]
    simp
  have hchannel : (responseChannel k (s.rp x k).beat.data).getLsbD i = true :=
    (Bool.and_eq_true_iff.mp hvalid).1
  rw [State.rpReady]
  fin_cases i
  · exact Bool.or_eq_true_iff.mpr (.inl (Bool.and_eq_true_iff.mpr ⟨hchannel, hvalid⟩))
  · have hshared : k.port001.isSome = true := by
      have hsource := (h.owed k 1 d ho).2.2
      cases k <;> first | rfl | exact absurd hsource (by decide)
    refine Bool.or_eq_true_iff.mpr (.inr (Bool.and_eq_true_iff.mpr ⟨?_, hvalid⟩))
    exact Bool.and_eq_true_iff.mpr ⟨hshared, hchannel⟩

theorem foldr_zero {l : List Slave} {f : Slave → BitVec 32} (h : ∀ k ∈ l, f k = 0) :
    l.foldr (fun k d => f k ||| d) 0 = 0 := by
  induction l with
  | nil => rfl
  | cons k l ih =>
    obtain ⟨hk, hl⟩ := List.forall_mem_cons.mp h
    rw [List.foldr_cons, hk, ih hl]
    rfl

/-- One answer among nothing comes through. -/
theorem foldr_or {l : List Slave} {f : Slave → BitVec 32} {k : Slave} (hk : k ∈ l)
    (h : ∀ k' ∈ l, k' ≠ k → f k' = 0) : l.foldr (fun k d => f k ||| d) 0 = f k := by
  induction l with
  | nil => cases hk
  | cons k' l ih =>
    obtain ⟨hfirst, hl⟩ := List.forall_mem_cons.mp h
    rw [List.foldr_cons]
    by_cases hin : k ∈ l
    · rw [ih hin hl]
      by_cases hsame : k' = k
      · rw [hsame, BitVec.or_self]
      · rw [hfirst hsame]
        exact BitVec.zero_or
    · obtain rfl : k = k' := (List.mem_cons.mp hk).resolve_right hin
      have hnone : l.foldr (fun k d => f k ||| d) 0 = 0 := by
        refine foldr_zero fun a ha => hl a ha ?_
        rintro rfl
        exact hin ha
      rw [hnone]
      exact BitVec.or_zero

/-- The answer of one device meets no other, and so the master gets its data. -/
theorem readdata_eq (h : Inv s o) {k : Slave} {i : Fin 2} {d : Stored} (ho : o k = some (i, d)) :
    s.readdata x i = (s.slave k).translator.uavReaddata (timing k) (x.device k) := by
  have hvalid : ∀ k', s.rspValid x k' i = decide (k' = k) := by
    intro k'
    rw [rspValid_eq h]
    refine decide_eq_decide.mpr ⟨fun hk' => ?_, ?_⟩
    · obtain ⟨⟨j, d'⟩, ho', rfl⟩ := Option.map_eq_some_iff.mp hk'
      exact h.alone k' k j d' d ho' ho
    · rintro rfl
      rw [ho]
      rfl
  refine (foldr_or (h.owed k i d ho).2.2 fun k' _ hother => ?_).trans ?_
  · rw [hvalid, decide_eq_false hother]
    simp [Beat.masked]
  · rw [hvalid, decide_eq_true rfl, masked_true]
    exact readdata_rpData _ _ _

/-! ## The ports of the processor -/

/-- What the processor has on a port while an access is under way there. -/
structure Fits (s : State) (x : Inputs) : Prop where
  proper : x.proper
  reading : ∀ i, (s.master i).readAccepted = true →
    (s.master i).writeAccepted = false ∧ (x.master i).read = true
  writing : ∀ i, (s.master i).writeAccepted = true →
    (s.master i).readAccepted = false ∧ (port i).writePre (x.master i) = true

theorem fits_reset (hproper : x.proper) : Fits reset x where
  proper := hproper
  reading i h := by cases h
  writing i h := by cases h

/-- Only the data master writes. -/
theorem registers_writes {i : Fin 2} {r : Request} (h : (port i).writePre r = true) :
    (port i).registerIncomingSignals = true := by
  fin_cases i
  · rfl
  · cases h

theorem master_step (h : Inv s o) (i : Fin 2) : (s.step x).master i =
    (s.master i).step (port i) (x.master i) (s.ready x i) (s.master i).readAccepted := by
  rw [← readdatavalid_eq (x := x) h]
  rfl

/-- An access under way ends, and no other is accepted meanwhile. -/
theorem master_underway (h : Inv s o) (hfits : Fits s x) {i : Fin 2}
    (hunderway : (s.master i).underway = true) : s.accepts x i = false ∧
    s.completes x i = true ∧ ((s.step x).master i).underway = false := by
  rw [State.accepts, State.completes, master_step h, readdatavalid_eq h]
  obtain hread | hwrite := Bool.or_eq_true_iff.mp hunderway
  · obtain ⟨hnoWrite, hasked⟩ := hfits.reading i hread
    rw [hread]
    exact step_answered hread hnoWrite (hfits.proper i) hasked
  · obtain ⟨hnoRead, hasked⟩ := hfits.writing i hwrite
    rw [hnoRead]
    exact step_written (registers_writes hasked) hwrite hnoRead (hfits.proper i) hasked

theorem accepts_idle (h : Inv s o) (hfits : Fits s x) {i : Fin 2}
    (haccepts : s.accepts x i = true) : (s.master i).underway = false := by
  by_contra hunderway
  rw [(master_underway h hfits (by simpa using hunderway)).1] at haccepts
  cases haccepts

/-- What a clock does to a port with nothing under way. -/
theorem master_idle (h : Inv s o) (hfits : Fits s x) {i : Fin 2}
    (hidle : (s.master i).underway = false) :
    ((s.step x).master i).readAccepted = ((x.master i).read && s.accepts x i) ∧
    ((s.step x).master i).writeAccepted =
      ((port i).writePre (x.master i) && (s.accepts x i && !s.completes x i)) ∧
    (s.completes x i = true → s.accepts x i = true ∧ (x.master i).read = false) ∧
    (s.accepts x i = true → s.completes x i = false →
      ((x.master i).read || (port i).writePre (x.master i)) = true ∧
        s.waitrequest x i = true) := by
  rw [State.accepts, State.completes, State.waitrequest, master_step h, readdatavalid_eq h,
    (Bool.or_eq_false_iff.mp hidle).1]
  exact step_idle hidle (hfits.proper i)

theorem readAccepted_step (h : Inv s o) (hfits : Fits s x) (i : Fin 2) :
    ((s.step x).master i).readAccepted = ((x.master i).read && s.accepts x i) := by
  cases hunderway : (s.master i).underway with
  | false => exact (master_idle h hfits hunderway).1
  | true =>
    obtain ⟨haccepts, -, hdone⟩ := master_underway h hfits hunderway
    rw [haccepts, Bool.and_false]
    exact (Bool.or_eq_false_iff.mp hdone).1

/-- What is under way behind a clock has been accepted in it and has not ended. -/
theorem underway_step (h : Inv s o) (hfits : Fits s x) (i : Fin 2) :
    ((s.step x).master i).underway = (s.accepts x i && !s.completes x i) := by
  cases hunderway : (s.master i).underway with
  | true =>
    obtain ⟨haccepts, -, hdone⟩ := master_underway h hfits hunderway
    rw [hdone, haccepts, Bool.false_and]
  | false =>
    obtain ⟨hread, hwrite, hends, hwaits⟩ := master_idle h hfits hunderway
    rw [MasterPort.State.underway, hread, hwrite]
    cases hcompletes : s.completes x i with
    | true => simp [(hends hcompletes).2]
    | false =>
      cases haccepts : s.accepts x i with
      | false => simp
      | true => simpa using (hwaits haccepts hcompletes).1

/-- The processor holds what is under way. -/
theorem master_kept (h : Inv s o) (hfits : Fits s x) {y : Inputs} (hholds : s.holds x y)
    {i : Fin 2} (hunderway : ((s.step x).master i).underway = true) :
    s.accepts x i = true ∧ s.completes x i = false ∧ y.master i = x.master i := by
  rw [underway_step h hfits, Bool.and_eq_true_iff, Bool.not_eq_true'] at hunderway
  obtain ⟨haccepts, hcompletes⟩ := hunderway
  obtain ⟨-, -, -, hwaits⟩ := master_idle h hfits (accepts_idle h hfits haccepts)
  obtain ⟨hasked, hwait⟩ := hwaits haccepts hcompletes
  exact ⟨haccepts, hcompletes, hholds i hasked hwait⟩

theorem fits_step (h : Inv s o) (hfits : Fits s x) {y : Inputs} (hproper : y.proper)
    (hholds : s.holds x y) : Fits (s.step x) y where
  proper := hproper
  reading i hread := by
    obtain ⟨haccepts, -, hkept⟩ :=
      master_kept h hfits hholds (Bool.or_eq_true_iff.mpr (.inl hread))
    obtain ⟨hreadStep, hwriteStep, -, -⟩ := master_idle h hfits (accepts_idle h hfits haccepts)
    rw [hreadStep, haccepts, Bool.and_true] at hread
    rw [hwriteStep, writePre_read (hfits.proper i) hread, Bool.false_and, hkept]
    exact ⟨rfl, hread⟩
  writing i hwrite := by
    obtain ⟨haccepts, -, hkept⟩ :=
      master_kept h hfits hholds (Bool.or_eq_true_iff.mpr (.inr hwrite))
    obtain ⟨hreadStep, hwriteStep, -, -⟩ := master_idle h hfits (accepts_idle h hfits haccepts)
    rw [hwriteStep] at hwrite
    have hpre := (Bool.and_eq_true_iff.mp hwrite).1
    rw [hreadStep, hkept, hpre]
    refine ⟨?_, rfl⟩
    by_contra hread
    have hread : (x.master i).read = true := (Bool.and_eq_true_iff.mp (by simpa using hread)).1
    rw [writePre_read (hfits.proper i) hread] at hpre
    cases hpre

/-- A port with an access under way offers nothing. -/
theorem valid_idle (hfits : Fits s x) {i : Fin 2} (hvalid : (s.sinks x i).valid = true) :
    (s.master i).underway = false := by
  by_contra hunderway
  have hnone : ((s.master i).accepts (port i) (x.master i) true) = false := by
    obtain hread | hwrite := Bool.or_eq_true_iff.mp (Bool.not_eq_false _ ▸ hunderway)
    · obtain ⟨hnoWrite, hasked⟩ := hfits.reading i hread
      exact (step_answered hread hnoWrite (hfits.proper i) hasked).1
    · obtain ⟨hnoRead, hasked⟩ := hfits.writing i hwrite
      exact (step_written (registers_writes hasked) hwrite hnoRead (hfits.proper i) hasked).1
  rw [MasterPort.State.accepts, Bool.and_true] at hnone
  exact absurd (hvalid.symm.trans hnone) (by decide)

/-- The command of a port is offered until it is accepted. -/
theorem sinks_kept (h : Inv s o) (hfits : Fits s x) {y : Inputs} (hholds : s.holds x y) {i : Fin 2}
    (hvalid : (s.sinks x i).valid = true) (hready : s.ready x i = false) :
    (s.step x).sinks y i = s.sinks x i := by
  have hidle := valid_idle hfits hvalid
  obtain ⟨hwait, hcommand⟩ := command_kept hidle hvalid
  have hasked : ((x.master i).read || (port i).writePre (x.master i)) = true := by
    obtain hwrite | hread := Bool.or_eq_true_iff.mp (Bool.and_eq_true_iff.mp hvalid).1
    · exact Bool.or_eq_true_iff.mpr (.inr (Bool.and_eq_true_iff.mp hwrite).1)
    · exact Bool.or_eq_true_iff.mpr (.inl (Bool.and_eq_true_iff.mp hread).1)
  have hanswer : (s.master i).readAccepted = false := (Bool.or_eq_false_iff.mp hidle).1
  have hkept : y.master i = x.master i := by
    refine hholds i hasked ?_
    rw [State.waitrequest, hready, readdatavalid_eq h, hanswer]
    exact hwait
  rw [State.sinks, State.sinks, hkept, master_step h, hready, hanswer]
  exact hcommand

/-- A device is offered a command until it takes it. -/
theorem cp_kept (h : Inv s o) (hfits : Fits s x) {y : Inputs} (hholds : s.holds x y) {k : Slave}
    (hvalid : (s.cp x k).valid = true) (hwait : s.cpReady x k = false) :
    (s.step x).cp y k = s.cp x k := by
  rw [cp_eq] at hvalid ⊢
  rw [cp_eq]
  exact src_keeps s.network (s.commands x) h.sound hvalid hwait fun i hi hready =>
    sinks_kept h hfits hholds hi hready

/-! ## Reads on their way, clock by clock -/

/-- The reads that are accepted in a clock. -/
def State.begins (s : State) (x : Inputs) (k : Slave) : Option (Fin 2 × Stored) :=
  if s.takes x k && Interconnect.read (s.cp x k).beat then
    some (source (s.cp x k).beat, stored (s.cp x k))
  else none

/-- A read is accepted at a device for the master that asks there. -/
theorem begins_iff (h : Inv s o) (hfits : Fits s x) {k : Slave} {i : Fin 2} {d : Stored} :
    s.begins x k = some (i, d) ↔ s.accepts x i = true ∧ (x.master i).read = true ∧
      s.destination x i = k ∧ d = stored ⟨true, stamped i (s.sinks x i).beat⟩ := by
  have hasked : ∀ j, s.accepts x j = true →
      Interconnect.read (stamped j (s.sinks x j).beat) = (x.master j).read := by
    intro j haccepts
    rw [read_stamped, uavRead_idle (accepts_idle h hfits haccepts)]
  rw [State.begins, Option.ite_none_right_eq_some, Bool.and_eq_true_iff]
  constructor
  · rintro ⟨⟨htakes, hread⟩, hsome⟩
    obtain ⟨j, haccepts, hk, hcp⟩ := takes_accepts h.sound htakes
    rw [hcp, source_stamped, Option.some.injEq, Prod.mk.injEq] at hsome
    obtain ⟨rfl, rfl⟩ := hsome
    rw [hcp, hasked j haccepts] at hread
    exact ⟨haccepts, hread, hk, rfl⟩
  · rintro ⟨haccepts, hread, rfl, rfl⟩
    obtain ⟨htakes, hcp⟩ := accepts_takes h.sound haccepts
    rw [hcp, source_stamped, hasked i haccepts]
    exact ⟨⟨htakes, hread⟩, rfl⟩

/-- Nothing is offered to a device in the clock behind reset. -/
theorem cp_start (h : Inv s o) {k : Slave}
    (hstart : (s.slave k).translator.waitrequestResetOverride = true) :
    (s.cp x k).valid = false := by
  obtain ⟨i, hi, -⟩ | ⟨hnone, -⟩ := cp_serves (x := x) h.sound k
  · have hheld := h.start i k hstart
    rw [State.sinks, MasterPort.State.command, hheld, Bool.not_true, Bool.and_false] at hi
    cases hi
  · exact hnone

theorem inv_step (h : Inv s o) (hfits : Fits s x) : Inv (s.step x) (s.begins x) where
  sound := sound_step _ _ h.sound
  answers k := by
    have hnext := @answers_step (timing k) (s.slave k) _ (s.cp x k) (x.device k) (s.rpReady x k)
      (h.answers k) (proper_cp h.sound k) (fun ho => rpReady_eq h (by simpa using ho))
      (cp_start h)
    rw [State.begins, apply_ite (Option.map Prod.snd)]
    exact hnext
  owed k i d hk := by
    obtain ⟨haccepts, hread, rfl, rfl⟩ := (begins_iff h hfits).mp hk
    rw [packet_stored_cp]
    refine ⟨?_, ?_, mem_sources i⟩
    · exact (extract_stripped _ (by decide) (by decide)).trans (srcId_stamped s x i)
    · rw [getLsbD_stripped _ (by decide) (by decide)]
      refine (read_stamped s x i).trans ?_
      rw [uavRead_idle (accepts_idle h hfits haccepts), hread]
  alone k k' i d d' hk hk' := by
    obtain ⟨-, -, rfl, -⟩ := (begins_iff h hfits).mp hk
    exact ((begins_iff h hfits).mp hk').2.2.1
  accepted i := by
    rw [readAccepted_step h hfits, Bool.and_eq_true_iff]
    constructor
    · rintro ⟨hread, haccepts⟩
      exact ⟨_, _, (begins_iff h hfits).mpr ⟨haccepts, hread, rfl, rfl⟩⟩
    · rintro ⟨k, d, hk⟩
      obtain ⟨haccepts, hread, -, -⟩ := (begins_iff h hfits).mp hk
      exact ⟨hread, haccepts⟩
  start i k hstart := by cases hstart

/-! ## Transfers at the devices -/

theorem toNat_aligned (r : Request) : r.aligned.toNat = 4 * (r.address.toNat / 4) := by
  have hlt : r.address.toNat / 4 < 2 ^ 15 := by
    have := r.address.isLt
    omega
  rw [Request.aligned, BitVec.toNat_append, BitVec.extractLsb'_toNat]
  simpa [Nat.shiftRight_eq_div_pow, Nat.shiftLeft_eq, Nat.mul_comm] using hlt

/-- The ranges of the devices begin and end with whole words. -/
theorem owner_aligned (i : Fin 2) (a : Nat) (read : Bool) :
    owner i (4 * (a / 4)) read = owner i a read := by
  have hle : ∀ n, 4 ∣ n → (n ≤ 4 * (a / 4) ↔ n ≤ a) := by
    rintro n ⟨m, rfl⟩
    omega
  have hlt : ∀ n, 4 ∣ n → (4 * (a / 4) < n ↔ a < n) := by
    rintro n ⟨m, rfl⟩
    omega
  simp (disch := decide) only [owner, hle, hlt]

theorem carried_access (i : Fin 2) (r : Request) (d : BitVec 32) :
    carried i (access r d) = ⟨i, owner i r.address.toNat r.read,
      let a := r.address.toNat / 4 % 2 ^ (timing (owner i r.address.toNat r.read)).addressWidth
      if r.read then .read a d else .write a r.byteenable r.writedata⟩ := by
  cases hread : r.read <;> simp [access, carried, hread]

/-- What a device takes is what the processor asks it for. -/
theorem served_accepts (h : Inv s o) (hfits : Fits s x) {i : Fin 2} (y : Option Inputs)
    (haccepts : s.accepts x i = true) : s.served x y (s.destination x i) =
      [carried i (access (x.master i) (given (s.destination x i) x y))] := by
  obtain ⟨htakes, hcp⟩ := accepts_takes h.sound haccepts
  have hread : (s.master i).uavRead (x.master i) = (x.master i).read :=
    uavRead_idle (accepts_idle h hfits haccepts)
  have hdest : s.destination x i = owner i (x.master i).address.toNat (x.master i).read := by
    rw [destination_eq, hread, toNat_aligned, owner_aligned]
  have hends : (s.slave (s.destination x i)).ends (timing _) (s.cp x (s.destination x i))
      (x.device (s.destination x i)) = true :=
    (ends_eq (h.answers _) (proper_cp h.sound _)).trans htakes
  have hword : (address (stamped i (s.sinks x i).beat)).toNat / 4 =
      (x.master i).address.toNat / 4 := by
    rw [address_stamped, toNat_aligned, Nat.mul_div_cancel_left _ (by decide)]
  have hasked : (s.slave (s.destination x i)).uavRead (s.cp x (s.destination x i)) =
      (x.master i).read := by
    rw [uavRead_eq (h.answers _) (proper_cp h.sound _), hcp, read_stamped, hread]
    rfl
  rw [State.served, if_pos hends, hasked, carried_access, ← hdest]
  simp only [State.signals, hcp, source_stamped, hword, byteenable_stamped, writedata_stamped]

/-- The transfers that end for a master. -/
def State.servedFor (s : State) (x : Inputs) (y : Option Inputs) (i : Fin 2) : List Transfer :=
  (slaves.flatMap (s.served x y)).filter fun t => t.master = i

theorem served_elsewhere (h : Inv s o) {i : Fin 2} (y : Option Inputs)
    {k : Slave} (hnot : ¬ (s.accepts x i = true ∧ s.destination x i = k)) :
    (s.served x y k).filter (fun t => t.master = i) = [] := by
  rw [State.served, ends_eq (h.answers k) (proper_cp h.sound k)]
  cases htakes : (s.slave k).takes (timing k) (s.cp x k) (x.device k) with
  | false => rfl
  | true =>
    obtain ⟨j, haccepts, hk, hcp⟩ := takes_accepts h.sound htakes
    rw [hcp, source_stamped]
    have hother : j ≠ i := by
      rintro rfl
      exact hnot ⟨haccepts, hk⟩
    simp [hother]

theorem servedFor_eq (h : Inv s o) (hfits : Fits s x) (y : Option Inputs) (i : Fin 2) :
    s.servedFor x y i = if s.accepts x i = true then
      [carried i (access (x.master i) (given (s.destination x i) x y))] else [] := by
  have hat : ∀ k, (s.served x y k).filter (fun t => t.master = i) =
      if s.accepts x i = true ∧ s.destination x i = k then
        [carried i (access (x.master i) (given (s.destination x i) x y))] else [] := by
    intro k
    split
    · rename_i haccepts
      obtain ⟨haccepts, rfl⟩ := haccepts
      rw [served_accepts h hfits y haccepts, carried_access]
      simp
    · exact served_elsewhere h y ‹_›
  rw [State.servedFor, List.filter_flatMap]
  simp only [hat]
  split
  · rename_i haccepts
    simp only [haccepts, true_and]
    cases s.destination x i <;> rfl
  · rename_i haccepts
    simp [haccepts]

/-! ## A run -/

/-- A device has served what is under way at a port, and the processor sees that next. -/
structure Owes (s : State) (y : Option Inputs) (i : Fin 2) (late : List Transfer) : Prop where
  one : late.length ≤ 1
  idle : (s.master i).underway = false → late = []
  next : ∀ x ∈ y, (s.master i).underway = true → late = (s.completed x i).map (carried i)

theorem owes_nothing (y : Option Inputs) {i : Fin 2} (hidle : (s.master i).underway = false) :
    Owes s y i [] where
  one := by decide
  idle _ := rfl
  next x _ hunderway := by
    rw [hidle] at hunderway
    cases hunderway

/-- A read ends with what the device has given for it. -/
theorem completed_step (h : Inv s o) (hfits : Fits s x) {y : Inputs} (hproper : y.proper)
    (hholds : s.holds x y) {i : Fin 2} (hunderway : ((s.step x).master i).underway = true) :
    (s.step x).completed y i = [access (x.master i) (given (s.destination x i) x (some y))] := by
  obtain ⟨haccepts, -, hkept⟩ := master_kept h hfits hholds hunderway
  have hnext := inv_step h hfits
  have hends := (master_underway hnext (fits_step h hfits hproper hholds) hunderway).2.1
  rw [State.completed, if_pos hends, hkept]
  cases hread : (x.master i).read with
  | false => simp [access, hread]
  | true =>
    have hbegins := (begins_iff h hfits).mpr ⟨haccepts, hread, rfl, rfl⟩
    rw [readdata_eq hnext hbegins]
    rfl

/-- One clock: what the devices serve and what the processor sees differ by what is under
way. -/
theorem owes_step (h : Inv s o) (hfits : Fits s x) {i : Fin 2} {late : List Transfer}
    (howes : Owes s (some x) i late) {y : Option Inputs}
    (hnext : ∀ z ∈ y, z.proper ∧ s.holds x z) : ∃ later, Owes (s.step x) y i later ∧
      late ++ s.servedFor x y i = (s.completed x i).map (carried i) ++ later := by
  rw [servedFor_eq h hfits]
  cases hunderway : (s.master i).underway with
  | true =>
    -- the access of the clocks before ends, and nothing else happens
    obtain ⟨haccepts, -, hdone⟩ := master_underway h hfits hunderway
    refine ⟨[], owes_nothing y hdone, ?_⟩
    rw [haccepts, howes.next x rfl hunderway]
    rfl
  | false =>
    obtain ⟨-, -, hends, -⟩ := master_idle h hfits hunderway
    have hstep := underway_step h hfits i
    rw [howes.idle hunderway, List.nil_append]
    cases haccepts : s.accepts x i with
    | false =>
      have hcompletes : s.completes x i = false := by
        by_contra hcompletes
        rw [(hends (by simpa using hcompletes)).1] at haccepts
        cases haccepts
      rw [haccepts, Bool.false_and] at hstep
      refine ⟨[], owes_nothing y hstep, ?_⟩
      rw [State.completed, hcompletes]
      rfl
    | true =>
      rw [haccepts, Bool.true_and] at hstep
      cases hcompletes : s.completes x i with
      | true =>
        -- only a write ends in the clock in which the device takes it
        rw [hcompletes] at hstep
        refine ⟨[], owes_nothing y hstep, ?_⟩
        rw [State.completed, hcompletes]
        simp [access, (hends hcompletes).2]
      | false =>
        rw [hcompletes] at hstep
        refine ⟨[carried i (access (x.master i) (given (s.destination x i) x y))], ?_, ?_⟩
        · refine ⟨Nat.le_refl 1, fun hidle => ?_, fun z hz hopen => ?_⟩
          · rw [hstep] at hidle
            cases hidle
          · obtain rfl : y = some z := hz
            obtain ⟨hproper, hholds⟩ := hnext z rfl
            rw [completed_step h hfits hproper hholds hopen]
            rfl
        · rw [State.completed, hcompletes]
          rfl

theorem proper_head {xs : List Inputs} (h : holdsAlong s xs) : ∀ x ∈ xs.head?, x.proper := by
  cases xs with
  | nil => simp
  | cons x xs =>
    intro y hy
    obtain rfl : x = y := Option.some.inj hy
    exact h.1

theorem kept_head {x : Inputs} {xs : List Inputs} (h : holdsAlong s (x :: xs)) :
    ∀ y ∈ xs.head?, y.proper ∧ s.holds x y :=
  fun y hy => ⟨proper_head h.2.2 y hy, h.2.1 y hy⟩

theorem owes_run {i : Fin 2} (xs : List Inputs) {s : State} {o : Slave → Option (Fin 2 × Stored)}
    (h : Inv s o) (hfits : ∀ x ∈ xs.head?, Fits s x) (hholds : holdsAlong s xs)
    {late : List Transfer} (howes : Owes s xs.head? i late) : ∃ later, later.length ≤ 1 ∧
      late ++ (servedAlong s xs).filter (fun t => t.master = i) =
        (completedAlong i s xs).map (carried i) ++ later := by
  induction xs generalizing s o late with
  | nil => exact ⟨late, howes.one, List.append_nil late⟩
  | cons x xs ih =>
    have hfit : Fits s x := hfits x rfl
    have hnext := kept_head hholds
    obtain ⟨later, howesStep, hbalance⟩ := owes_step h hfit howes hnext
    obtain ⟨last, hone, hrun⟩ := ih (inv_step h hfit)
      (fun y hy => fits_step h hfit (hnext y hy).1 (hnext y hy).2) hholds.2.2 howesStep
    refine ⟨last, hone, ?_⟩
    rw [servedAlong, List.filter_append, completedAlong, List.map_append, ← List.append_assoc]
    change late ++ s.servedFor x xs.head? i ++ _ = _
    rw [hbalance, List.append_assoc, hrun, List.append_assoc]

def State.run (s : State) (xs : List Inputs) : State := xs.foldl State.step s

theorem inv_run {xs ys : List Inputs} (h : Inv s o) (hfits : ∀ x ∈ (xs ++ ys).head?, Fits s x)
    (hholds : holdsAlong s (xs ++ ys)) : ∃ o', Inv (s.run xs) o' := by
  induction xs generalizing s o with
  | nil => exact ⟨o, h⟩
  | cons x xs ih =>
    have hfit : Fits s x := hfits x rfl
    have hnext := kept_head hholds
    exact ih (inv_step h hfit)
      (fun y hy => fits_step h hfit (hnext y hy).1 (hnext y hy).2) hholds.2.2

/-- No two devices answer a master in one clock. -/
theorem answers_alone (h : Inv s o) {i : Fin 2} {k k' : Slave} (hk : s.rspValid x k i = true)
    (hk' : s.rspValid x k' i = true) : k = k' := by
  rw [rspValid_eq h, decide_eq_true_iff] at hk hk'
  obtain ⟨⟨j, d⟩, ho, rfl⟩ := Option.map_eq_some_iff.mp hk
  obtain ⟨⟨j', d'⟩, ho', rfl⟩ := Option.map_eq_some_iff.mp hk'
  exact h.alone k k' _ d d' ho ho'

/-- From reset on, what the devices do for a master is what the processor has asked for there:
every access once, in order, at the device that owns its address, and a read ends with what
that device has given. At most the last one is still on its way, and two answers never meet. -/
theorem carried_out {xs : List Inputs} (hholds : holdsAlong reset xs) (i : Fin 2) :
    (∃ late, late.length ≤ 1 ∧
      (servedAlong reset xs).filter (fun t => t.master = i) =
        (completedAlong i reset xs).map (carried i) ++ late) ∧
    ∀ early x later, xs = early ++ x :: later → ∀ k k',
      (reset.run early).rspValid x k i = true → (reset.run early).rspValid x k' i = true →
        k = k' := by
  have hfits : ∀ x ∈ xs.head?, Fits reset x := fun x hx => fits_reset (proper_head hholds x hx)
  refine ⟨owes_run xs inv_reset hfits hholds (owes_nothing _ rfl), ?_⟩
  rintro early x later rfl k k' hk hk'
  obtain ⟨o, hinv⟩ := inv_run inv_reset hfits hholds
  exact answers_alone hinv hk hk'

/-- The data master lights two LEDs, if at all, and the instruction master fetches. -/
def fetching (lights : Bool) (word : BitVec 32) : Inputs where
  master i :=
    if i = dataMaster then ⟨false, lights, 0x11040, 15, 3, false⟩
    else ⟨true, false, 0x8000, 15, 0, false⟩
  device _ := ⟨false, word⟩

def lightsAndFetch : List Inputs :=
  [fetching true 5, fetching true 6, fetching false 7, fetching false 8]

/-- The fetch waits for the arbiter, and gets the word behind the clock that accepts it. -/
theorem carried_out_fetch :
    completedAlong dataMaster reset lightsAndFetch = [.write 0x11040 15 3] ∧
    completedAlong instructionMaster reset lightsAndFetch = [.read 0x8000 8] ∧
    ∃ late, late.length ≤ 1 ∧
      (servedAlong reset lightsAndFetch).filter (fun t => t.master = instructionMaster) =
        (completedAlong instructionMaster reset lightsAndFetch).map
          (carried instructionMaster) ++ late :=
  ⟨by decide +kernel, by decide +kernel, (carried_out (by decide +kernel) instructionMaster).1⟩

end Avalon
