import Mathlib.Data.List.Basic
import NiosMenu.Reactive

/-!
# Statements and events of the Nios II firmware

A C function without free-running loops over a device is the list of its device
accesses; the polling loops of the UART and of the JTAG UART driver are control
points of their own, executed one bus access at a time. `char` is a signed byte
and every value written to a device is first promoted to a 32-bit `int`.
-/
namespace Firmware

open Reactive

abbrev Byte := BitVec 8
abbrev Word := BitVec 32

/-- The integer promotion of a `char`. -/
def promote (c : Byte) : Word := c.signExtend 32

/-- The byte lane that an 8-bit device register keeps. -/
def low (v : Word) : Byte := v.setWidth 8

@[simp] theorem low_promote (c : Byte) : low (promote c) = c := by
  ext i hi
  simp only [low, promote, BitVec.getElem_setWidth, BitVec.getLsbD_signExtend]
  simp [hi, show i < 32 by omega]

/-- Bit 6 of STATUS, the transmitter-ready flag. -/
def trdy (v : Word) : Bool := v &&& 0x40 == 0x40

/-- Bit 7 of STATUS, the receiver-ready flag. -/
def rrdy (v : Word) : Bool := v &&& 0x80 != 0

/-- The write space field of the JTAG UART control register. -/
def wspace (v : Word) : Bool := v &&& 0xFFFF0000 != 0

/-- The character 'K'. -/
def letterK : Byte := 0x4B

inductive Action where
  | usleep (us : Nat)
  | lcd (dataa datab : Word)
  | leds (data : Word)
  | txdata (data : Word)
  | jtagData (c : Byte)
  deriving DecidableEq, Repr

inductive Stmt where
  | act (a : Action)
  | pollTrdy
  | pollRrdy
  | readRxdata
  | checkByte (check : Byte)
  | jtagWrite (c : Byte)
  deriving DecidableEq, Repr

inductive Event where
  | act (a : Action)
  | status (v : Word)
  | rxdata (v : Word)
  | compare (check : Byte)
  | jtagControl (v : Word)
  | button (v : Word)
  deriving DecidableEq, Repr

abbrev usleep (us : Nat) : Stmt := .act (.usleep us)
abbrev altCiLcd0 (dataa datab : Word) : Stmt := .act (.lcd dataa datab)
abbrev iowrLeds (data : Word) : Stmt := .act (.leds data)
abbrev iowrTxdata (data : Word) : Stmt := .act (.txdata data)

/-- One bus access of the statement in hand, and what is left of that statement. -/
def micro : Stmt → Event → Option (List Stmt)
  | .act a, .act b => if b = a then some [] else none
  | .pollTrdy, .status v => some (if trdy v then [] else [.pollTrdy])
  | .pollRrdy, .status v => some (if rrdy v then [.readRxdata] else [.pollRrdy])
  | .readRxdata, .rxdata v => some [.jtagWrite (low v), .checkByte (low v)]
  | .checkByte check, .compare c =>
    if c = check then some (if check = letterK then [] else [.pollRrdy]) else none
  | .jtagWrite c, .jtagControl v => some (if wspace v then [.act (.jtagData c)] else [.jtagWrite c])
  | _, _ => none

/-- Everything one bus access can do. -/
theorem micro_cases {s : Stmt} {e : Event} {l : List Stmt} (h : micro s e = some l) :
    (∃ a, s = .act a ∧ e = .act a ∧ l = []) ∨
    (∃ v, s = .pollTrdy ∧ e = .status v ∧ l = if trdy v then [] else [.pollTrdy]) ∨
    (∃ v, s = .pollRrdy ∧ e = .status v ∧ l = if rrdy v then [.readRxdata] else [.pollRrdy]) ∨
    (∃ v, s = .readRxdata ∧ e = .rxdata v ∧ l = [.jtagWrite (low v), .checkByte (low v)]) ∨
    (∃ c, s = .checkByte c ∧ e = .compare c ∧ l = if c = letterK then [] else [.pollRrdy]) ∨
    (∃ c v, s = .jtagWrite c ∧ e = .jtagControl v ∧
      l = if wspace v then [.act (.jtagData c)] else [.jtagWrite c]) := by
  cases s <;> cases e <;> simp only [micro, reduceCtorEq, Option.some.injEq,
    Option.ite_none_right_eq_some] at h
  case act.act a b => exact .inl ⟨a, rfl, by rw [h.1], h.2.symm⟩
  case pollTrdy.status v => exact .inr (.inl ⟨v, rfl, rfl, h.symm⟩)
  case pollRrdy.status v => exact .inr (.inr (.inl ⟨v, rfl, rfl, h.symm⟩))
  case readRxdata.rxdata v => exact .inr (.inr (.inr (.inl ⟨v, rfl, rfl, h.symm⟩)))
  case checkByte.compare c d =>
    exact .inr (.inr (.inr (.inr (.inl ⟨c, rfl, by rw [h.1], h.2.symm⟩))))
  case jtagWrite.jtagControl c v =>
    exact .inr (.inr (.inr (.inr (.inr ⟨c, v, rfl, rfl, h.symm⟩))))

/-- Only the main loop reads the push buttons. -/
def heard : Event → Option Word
  | .button v => some v
  | _ => none

theorem heard_button {e : Event} {v : Word} (h : heard e = some v) : e = .button v := by
  cases e <;> cases h
  rfl

theorem heard_free (s : Stmt) (e : Event) (v : Word) (h : heard e = some v) : micro s e = none := by
  cases e <;> simp [heard] at h
  cases s <;> rfl

/-- A program with the given reactions of its main loop to a push-button value. -/
def firmware (react : κ → Word → List Stmt × κ) : Machine Stmt Event κ Word :=
  ⟨micro, heard, react, heard_free⟩

@[simp] theorem firmware_micro (react : κ → Word → List Stmt × κ) :
    (firmware react).micro = micro := rfl
@[simp] theorem firmware_heard (react : κ → Word → List Stmt × κ) :
    (firmware react).heard = heard := rfl
@[simp] theorem firmware_react (react : κ → Word → List Stmt × κ) :
    (firmware react).react = react := rfl

/-- The push-button values read so far. -/
def buttons (es : List Event) : List Word := es.filterMap heard

@[simp] theorem inputs_firmware (react : κ → Word → List Stmt × κ) (es : List Event) :
    inputs (firmware react) es = buttons es := rfl

/-- The device accesses among the events of a run, in order. -/
def accesses (es : List Event) : List Action :=
  es.filterMap fun
    | .act a => some a
    | _ => none

/-- The statements a function body consists of; the others arise inside `readUart`. -/
def Stmt.written : Stmt → Bool
  | .readRxdata | .checkByte _ => false
  | _ => true

@[simp] theorem written_act (a : Action) : (Stmt.act a).written = true := rfl
@[simp] theorem written_pollTrdy : Stmt.pollTrdy.written = true := rfl
@[simp] theorem written_pollRrdy : Stmt.pollRrdy.written = true := rfl
@[simp] theorem written_jtagWrite (c : Byte) : (Stmt.jtagWrite c).written = true := rfl

/-- What an event does to a device of our choice: `f` says which accesses count, `ask`
what a button read adds and `ret` what the end of a `readUart` call adds. -/
def emitted (f : Action → List ω) (ask : Word → List ω) (ret : List ω) : Event → List ω
  | .act a => f a
  | .compare c => if c = letterK then ret else []
  | .button v => ask v
  | _ => []

/-- What a statement still owes to that device. -/
def owing (f : Action → List ω) (ret : List ω) : Stmt → List ω
  | .act a => f a
  | .pollRrdy | .readRxdata | .checkByte _ => ret
  | _ => []

@[simp] theorem owing_act (f : Action → List ω) (ret : List ω) (a : Action) :
    owing f ret (.act a) = f a := rfl
@[simp] theorem owing_pollTrdy (f : Action → List ω) (ret : List ω) :
    owing f ret .pollTrdy = [] := rfl
@[simp] theorem owing_pollRrdy (f : Action → List ω) (ret : List ω) :
    owing f ret .pollRrdy = ret := rfl
@[simp] theorem owing_readRxdata (f : Action → List ω) (ret : List ω) :
    owing f ret .readRxdata = ret := rfl
@[simp] theorem owing_checkByte (f : Action → List ω) (ret : List ω) (c : Byte) :
    owing f ret (.checkByte c) = ret := rfl
@[simp] theorem owing_jtagWrite (f : Action → List ω) (ret : List ω) (c : Byte) :
    owing f ret (.jtagWrite c) = [] := rfl

/-- Without button reads and `readUart` calls only the accesses are left. -/
theorem emitted_accesses (f : Action → List ω) (es : List Event) :
    es.flatMap (emitted f (fun _ => []) []) = (accesses es).flatMap f := by
  induction es with
  | nil => rfl
  | cons e es ih =>
    rw [List.flatMap_cons, ih]
    cases e <;> simp [emitted, accesses]

/-- Console output apart, no access of a script is lost, repeated or reordered. -/
theorem micro_emitted (f : Action → List ω) (ask : Word → List ω) (ret : List ω)
    (quiet : ∀ c, f (.jtagData c) = []) {s : Stmt} {e : Event} {l : List Stmt}
    (h : micro s e = some l) :
    emitted f ask ret e ++ l.flatMap (owing f ret) = owing f ret s := by
  obtain ⟨a, rfl, rfl, rfl⟩ | ⟨v, rfl, rfl, rfl⟩ | ⟨v, rfl, rfl, rfl⟩ | ⟨v, rfl, rfl, rfl⟩ |
    ⟨c, rfl, rfl, rfl⟩ | ⟨c, v, rfl, rfl, rfl⟩ := micro_cases h
  · simp [emitted]
  · split <;> simp [emitted]
  · split <;> simp [emitted]
  · simp [emitted]
  · split <;> simp [emitted, *]
  · split <;> simp [emitted, quiet]

def emission (react : κ → Word → List Stmt × κ) (f : Action → List ω) (ask : Word → List ω)
    (ret : List ω) (quiet : ∀ c, f (.jtagData c) = []) : Emission (firmware react) ω where
  emit := emitted f ask ret
  owed := owing f ret
  asked := ask
  micro_emit := micro_emitted f ask ret quiet
  heard_emit := by
    intro e i h
    cases e <;> simp only [firmware_heard, heard, reduceCtorEq, Option.some.injEq] at h
    exact h ▸ rfl

/-- An environment that never lets a poll fail, answers 'K' and has room on the console. -/
def serve : Stmt → List Event
  | .act a => [.act a]
  | .pollTrdy => [.status 0x40]
  | .pollRrdy => [.status 0x80, .rxdata 0x4B, .jtagControl 0x10000, .act (.jtagData letterK),
      .compare letterK]
  | .jtagWrite c => [.jtagControl 0x10000, .act (.jtagData c)]
  | _ => []

theorem serve_written (react : κ → Word → List Stmt × κ) {s : Stmt} (h : s.written) :
    Serves (firmware react) serve s := by
  intro rest k
  cases s with
  | act a => simp [serve, micro]
  | pollTrdy => simp [serve, micro, trdy]
  | pollRrdy => simp [serve, micro, rrdy, wspace, low, letterK]
  | readRxdata => cases h
  | checkByte check => cases h
  | jtagWrite c => simp [serve, micro, wspace]

/-! ## The C text around the device accesses -/

/-- The two push-button reads of `main`, with the value of `count` there. -/
inductive Poll where
  | menu (count : Int)
  | selection (count : Int)
  deriving DecidableEq, Repr

/-- The contents of an array of `char` initialized by character constants. -/
def cChars (cs : List Char) : List Byte := cs.map fun c => BitVec.ofNat 8 c.toNat

def ascii (s : String) : List Byte := cChars s.toList

/-- The contents of an array of `char` initialized by a string literal. -/
def cString (s : String) : List Byte := ascii s ++ [0]

/-- A two-character constant such as '/0', of which a `char` keeps the second half. -/
def multichar (a b : Char) : Byte := BitVec.ofNat 8 (256 * a.toNat + b.toNat)

def strlen (v : List Byte) : Int := (v.takeWhile (· ≠ 0)).length

theorem strlen_cString {s : String} (h : 0 ∉ ascii s) : strlen (cString s) = (ascii s).length := by
  have hall : ∀ b ∈ ascii s, decide (b ≠ 0) = true := by
    intro b hb
    exact decide_eq_true fun hzero => h (hzero ▸ hb)
  rw [strlen, cString, List.takeWhile_append_of_pos hall]
  simp

def sizeof (v : List Byte) : Int := v.length

/-- Element i of a `char` array as an operand of type `int`. -/
def charAt (v : List Byte) (i : Nat) : Word := promote (v.getD i 0)

/-- for (i = 0; i < n; i++) -/
def forLoop (n : Int) (body : Nat → List Stmt) : List Stmt := (List.range n.toNat).flatMap body

/-- A loop over the first elements of an array is a loop over a list. -/
theorem forLoop_take (v : List Byte) (n : Int) (hn : n ≤ v.length) (body : Byte → List Stmt) :
    forLoop n (fun i => body (v.getD i 0)) = (v.take n.toNat).flatMap body := by
  have hrange : (List.range n.toNat).map (fun i => v.getD i 0) = v.take n.toNat := by
    apply List.ext_getElem
    · simp only [List.length_map, List.length_range, List.length_take]
      omega
    · intro i hi _
      have hlen : i < v.length := by simp at hi; omega
      simp [hlen]
  rw [forLoop, ← hrange, List.flatMap_map]

def altPrintf (s : String) : List Stmt := (ascii s).map .jtagWrite

end Firmware
