import Mathlib.Algebra.Order.Ring.Nat
import NiosMenu.Codec

/-!
# MQTT control packets

The three packets of a client that publishes once: CONNECT without will, user and
password, PUBLISH at most once, and DISCONNECT. A packet is a type byte, the length of
what follows in groups of seven bits, and its body.
-/
namespace Mqtt

open Codec

abbrev Octet := BitVec 8

def octet (n : Nat) : Octet := BitVec.ofNat 8 n

theorem toNat_octet {n : Nat} (h : n < 256) : (octet n).toNat = n := by
  simp [octet, Nat.mod_eq_of_lt h]

/-! ## Numbers and strings -/

/-- A number of two bytes, the high one first. -/
def writeWord (n : Nat) : List Octet := [octet (n / 256), octet (n % 256)]

def readWord : Reader Octet Nat
  | a :: b :: rest => some (256 * a.toNat + b.toNat, rest)
  | _ => none

theorem word_inverts : Inverts (· < 65536) writeWord readWord := by
  intro n rest hn
  have hhigh := toNat_octet (n := n / 256) (by omega)
  have hlow := toNat_octet (n := n % 256) (by omega)
  simp only [writeWord, readWord, List.cons_append, List.nil_append, hhigh, hlow, Option.some.injEq,
    Prod.mk.injEq, and_true]
  omega

/-- A string behind its length. -/
def writeText (s : List Octet) : List Octet := writeWord s.length ++ s
def readText : Reader Octet (List Octet) := readWord.andThen take

theorem text_inverts : Inverts (fun s => s.length < 65536) writeText readText := by
  intro s rest hs
  rw [writeText, readText, List.append_assoc, word_inverts.andThen hs]
  exact take_inverts s.length s rest rfl

/-- Groups of seven bits, the lowest first, of which all but the last have the top bit set. -/
def writeLength : Nat → Nat → List Octet
  | 0, _ => []
  | k + 1, n =>
    if n < 128 then [octet n] else octet (n % 128 + 128) :: writeLength k (n / 128)

def readLength : Nat → Reader Octet Nat
  | 0, _ => none
  | _ + 1, [] => none
  | k + 1, b :: rest =>
    if b.toNat < 128 then some (b.toNat, rest)
    else (readLength k rest).map fun r => (b.toNat - 128 + 128 * r.1, r.2)

theorem length_inverts (k : Nat) :
    Inverts (fun n => 0 < k ∧ n < 128 ^ k) (writeLength k) (readLength k) := by
  induction k with
  | zero => intro n rest hn; cases hn.1
  | succ k ih =>
    intro n rest hn
    by_cases hsmall : n < 128
    · have hone := toNat_octet (n := n) (by omega)
      simp [writeLength, readLength, hsmall, hone]
    · have hbyte := toNat_octet (n := n % 128 + 128) (by omega)
      have hpow : n / 128 < 128 ^ k := by
        have hlt := hn.2
        rw [Nat.pow_succ] at hlt
        exact (Nat.div_lt_iff_lt_mul (by decide)).mpr hlt
      have hpos : 0 < k := by
        by_contra hzero
        obtain rfl : k = 0 := by omega
        have hlt := hn.2
        omega
      have hrest := ih (n / 128) rest ⟨hpos, hpow⟩
      have hlarge : ¬ n % 128 + 128 < 128 := by omega
      rw [writeLength, if_neg hsmall, List.cons_append, readLength, hbyte, if_neg hlarge, hrest,
        Option.map_some, Option.some.injEq, Prod.mk.injEq]
      exact ⟨by simp only; omega, rfl⟩

/-! ## Frames -/

structure Frame where
  header : Octet
  body : List Octet
  deriving DecidableEq, Repr

def Frame.write (f : Frame) : List Octet := f.header :: writeLength 4 f.body.length ++ f.body

def readFrame : Reader Octet Frame
  | [] => none
  | b :: rest =>
    (readLength 4).andThen (fun n rest => (take n rest).map fun r => (⟨b, r.1⟩, r.2)) rest

theorem frame_inverts : Inverts (fun f => f.body.length < 128 ^ 4) Frame.write readFrame := by
  intro f rest hf
  have hbody : take f.body.length (f.body ++ rest) = some (f.body, rest) :=
    take_inverts f.body.length f.body rest rfl
  rw [Frame.write, List.cons_append, List.cons_append, List.append_assoc, readFrame,
    (length_inverts 4).andThen ⟨by decide, hf⟩, hbody]
  rfl

/-! ## Packets -/

inductive Packet where
  | connect (cleanSession : Bool) (keepAlive : Nat) (clientId : List Octet)
  | publish (topic message : List Octet)
  | disconnect
  deriving DecidableEq, Repr

def Packet.Ok : Packet → Prop
  | .connect _ keepAlive clientId => keepAlive < 65536 ∧ clientId.length < 65536
  | .publish topic message => topic.length < 65536 ∧ message.length < 65536
  | .disconnect => True

/-- The protocol name and its level. -/
def protocol : List Octet := writeText [0x4d, 0x51, 0x54, 0x54] ++ [0x04]

def Packet.frame : Packet → Frame
  | .connect cleanSession keepAlive clientId =>
    ⟨0x10, protocol ++ ((if cleanSession then 0x02 else 0x00) ::
      (writeWord keepAlive ++ writeText clientId))⟩
  | .publish topic message => ⟨0x30, writeText topic ++ message⟩
  | .disconnect => ⟨0xe0, []⟩

def Packet.write (p : Packet) : List Octet := p.frame.write

/-- A whole body, with nothing behind it. -/
def whole (read : Reader Octet Packet) (body : List Octet) : Option Packet :=
  match read body with
  | some (p, []) => some p
  | _ => none

def readFlags : Reader Octet Bool
  | b :: rest =>
    if b = 0x02 then some (true, rest) else if b = 0x00 then some (false, rest) else none
  | [] => none

def readConnect : Reader Octet Packet :=
  (expect protocol).andThen fun _ => readFlags.andThen fun cleanSession =>
    readWord.andThen fun keepAlive rest =>
      (readText rest).map fun r => (.connect cleanSession keepAlive r.1, r.2)

def Frame.packet (f : Frame) : Option Packet :=
  if f.header = 0x10 then whole readConnect f.body
  else if f.header = 0x30 then (readText f.body).map fun r => .publish r.1 r.2
  else if f = ⟨0xe0, []⟩ then some .disconnect
  else none

def readPacket : Reader Octet Packet := fun bs =>
  (readFrame bs).bind fun r => r.1.packet.map (·, r.2)

theorem flags_inverts :
    Inverts (fun _ => True) (fun clean : Bool => [if clean then 0x02 else 0x00]) readFlags := by
  intro clean rest _
  cases clean <;> rfl

theorem readConnect_write {cleanSession : Bool} {keepAlive : Nat} {clientId : List Octet}
    (h : (Packet.connect cleanSession keepAlive clientId).Ok) :
    readConnect (Packet.connect cleanSession keepAlive clientId).frame.body =
      some (.connect cleanSession keepAlive clientId, []) := by
  have hflags := flags_inverts.andThen (a := cleanSession) trivial (fun cleanSession =>
    readWord.andThen fun keepAlive rest => (readText rest).map fun r =>
      (Packet.connect cleanSession keepAlive r.1, r.2)) (writeWord keepAlive ++ writeText clientId)
  have htext := text_inverts clientId [] h.2
  rw [List.append_nil] at htext
  rw [List.singleton_append, word_inverts.andThen h.1, htext] at hflags
  have hprotocol := (expect_inverts protocol).andThen (a := ()) trivial (fun _ =>
    readFlags.andThen fun cleanSession => readWord.andThen fun keepAlive rest =>
      (readText rest).map fun r => (Packet.connect cleanSession keepAlive r.1, r.2))
    ((if cleanSession then 0x02 else 0x00) :: (writeWord keepAlive ++ writeText clientId))
  rw [hflags] at hprotocol
  exact hprotocol

theorem frame_packet {p : Packet} (h : p.Ok) : p.frame.packet = some p := by
  cases p with
  | connect cleanSession keepAlive clientId =>
    have hread := readConnect_write h
    simp only [Packet.frame, Frame.packet, if_true] at hread ⊢
    rw [whole, hread]
  | publish topic message =>
    have hread := text_inverts topic message h.1
    have hother : (0x30 : Octet) ≠ 0x10 := by decide
    simp only [Packet.frame, Frame.packet, if_neg hother, if_true, hread, Option.map_some]
  | disconnect => rfl

theorem length_writeText (s : List Octet) : (writeText s).length = s.length + 2 := by
  rw [writeText, List.length_append, Nat.add_comm]
  rfl

theorem frame_small {p : Packet} (h : p.Ok) : p.frame.body.length < 128 ^ 4 := by
  cases p with
  | connect cleanSession keepAlive clientId =>
    have hid := h.2
    have hprotocol : protocol.length = 7 := rfl
    have hword : (writeWord keepAlive).length = 2 := rfl
    simp only [Packet.frame, List.length_append, List.length_cons, length_writeText, hprotocol,
      hword]
    omega
  | publish topic message =>
    obtain ⟨htopic, hmessage⟩ := h
    simp only [Packet.frame, List.length_append, length_writeText]
    omega
  | disconnect => decide

theorem packet_inverts : Inverts Packet.Ok Packet.write readPacket := by
  intro p rest hp
  rw [Packet.write, readPacket, frame_inverts p.frame rest (frame_small hp), Option.bind_some,
    frame_packet hp]
  rfl

/-- The packets of a whole stream. -/
def packets (bs : List Octet) : Option (List Packet) := all readPacket bs

theorem packets_flatMap {ps : List Packet} (h : ∀ p ∈ ps, p.Ok) :
    packets (ps.flatMap Packet.write) = some ps :=
  all_flatMap packet_inverts (fun _ => List.cons_ne_nil _ _) h

end Mqtt
