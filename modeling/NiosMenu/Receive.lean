import NiosMenu.Mailbox
import NiosMenu.Networked

/-!
# The receiver and `readUart`

The UART keeps one received byte. A `readUart` call goes round its polling loop until
it has compared a 'K'; what it has consumed is what arrived, without the bytes that
were overwritten while the call was busy with an earlier one.
-/
namespace Receive

open Firmware Reactive Mailbox

variable {α : Type}

/-- RXDATA with its flag RRDY; a value that arrives may be more than its byte. -/
def serial (val : α → Byte) : Port Event α where
  takes
    | .rxdata _ => true
    | _ => false
  permits held
    | .status v => rrdy v == held.isSome
    | .rxdata v => held.map val == some (low v)
    | _ => true

@[simp] theorem serial_takes_rxdata (val : α → Byte) (v : Word) :
    (serial val).takes (.rxdata v) = true := rfl
@[simp] theorem serial_permits_rxdata (val : α → Byte) (held : Option α) (v : Word) :
    (serial val).permits held (.rxdata v) = (held.map val == some (low v)) := rfl
@[simp] theorem serial_permits_status (val : α → Byte) (held : Option α) (v : Word) :
    (serial val).permits held (.status v) = (rrdy v == held.isSome) := rfl

/-- One bus access of a function body, without a main loop behind it. -/
def callStep : List Stmt → Event → Option (List Stmt)
  | [], _ => none
  | s :: rest, e => (micro s e).map (· ++ rest)

/-- The caller's statements behind a call do not take part in it. -/
theorem step_front {react : κ → Word → List Stmt × κ} {p : List Stmt} (hp : p ≠ [])
    (rest : List Stmt) (k : κ) (e : Event) :
    step (firmware react) ⟨p ++ rest, k⟩ e = (callStep p e).map fun q => ⟨q ++ rest, k⟩ := by
  cases p with
  | nil => exact absurd rfl hp
  | cons s p =>
    rw [List.cons_append, step_cons, callStep, firmware_micro]
    cases micro s e <;> simp

theorem step_call {react : κ → Word → List Stmt × κ} {p q rest : List Stmt} {k : κ} {e : Event}
    (h : callStep p e = some q) : step (firmware react) ⟨p ++ rest, k⟩ e = some ⟨q ++ rest, k⟩ := by
  have hp : p ≠ [] := by
    rintro rfl
    cases h
  rw [step_front hp, h, Option.map_some]

/-- The accesses of a call so far, up to those it still has to make. -/
theorem call_accesses (f : Action → List ω) (quiet : ∀ c, f (.jtagData c) = []) {p q : List Stmt}
    {es : List Event} (h : run callStep p es = some q) :
    (accesses es).flatMap f ++ q.flatMap (owing f []) = p.flatMap (owing f []) := by
  rw [← emitted_accesses]
  induction es generalizing p with
  | nil =>
    simp only [run_nil, Option.some.injEq] at h
    exact h ▸ rfl
  | cons e es ih =>
    obtain ⟨m, hm, hq⟩ := Option.bind_eq_some_iff.mp h
    cases p with
    | nil => cases hm
    | cons s rest =>
      obtain ⟨l, hl, rfl⟩ := Option.map_eq_some_iff.mp hm
      have hone := micro_emitted f (fun _ => []) [] quiet hl
      rw [List.flatMap_cons, List.append_assoc, ih hq, List.flatMap_append, ← List.append_assoc,
        hone, List.flatMap_cons]

/-- Where a `readUart` call stands. -/
inductive Stage where
  | polling
  | ready
  | printing (check : Byte)
  | printed (check : Byte)
  | checking (check : Byte)
  | returned
  deriving DecidableEq, Repr

def Stage.code : Stage → List Stmt
  | .polling => [.pollRrdy]
  | .ready => [.readRxdata]
  | .printing check => [.jtagWrite check, .checkByte check]
  | .printed check => [.act (.jtagData check), .checkByte check]
  | .checking check => [.checkByte check]
  | .returned => []

theorem code_nil {st : Stage} : st.code = [] ↔ st = .returned := by
  cases st <;> simp [Stage.code]

theorem code_polling {st : Stage} : st.code = Networked.readUart ↔ st = .polling := by
  cases st <;> simp [Stage.code, Networked.readUart]

def Stage.next : Stage → Event → Option Stage
  | .polling, .status v => some (if rrdy v then .ready else .polling)
  | .ready, .rxdata v => some (.printing (low v))
  | .printing check, .jtagControl v => some (if wspace v then .printed check else .printing check)
  | .printed check, .act a => if a = .jtagData check then some (.checking check) else none
  | .checking check, .compare c =>
    if c = check then some (if check = letterK then .returned else .polling) else none
  | _, _ => none

/-- The statements of a call are one of six stages, and step as these do. -/
theorem callStep_code (st : Stage) (e : Event) :
    callStep st.code e = (st.next e).map Stage.code := by
  cases st <;> cases e <;> simp only [Stage.code, Stage.next, callStep, micro, Option.map_none,
    Option.map_some]
  case ready.rxdata v => rfl
  case polling.status v => cases rrdy v <;> rfl
  case printing.jtagControl check v => cases wspace v <;> rfl
  case printed.act check a => split <;> rfl
  case checking.compare check c => split_ifs <;> rfl

/-- The byte that the call has read and not yet compared. -/
def Stage.check : Stage → Option Byte
  | .printing check | .printed check | .checking check => some check
  | .polling | .ready | .returned => none

/-- A byte enters the call at RXDATA and leaves it at its comparison. -/
def Checks (st st' : Stage) (e : Event) : Prop :=
  (∃ v, e = .rxdata v ∧ st.check = none ∧ st'.check = some (low v)) ∨
  (∃ b, e = .compare b ∧ st.check = some b ∧ st'.check = none) ∨
  (∀ v, e ≠ .rxdata v) ∧ (∀ b, e ≠ .compare b) ∧ st'.check = st.check

theorem next_checks {st st' : Stage} {e : Event} (h : st.next e = some st') : Checks st st' e := by
  cases st <;> cases e <;> simp only [Stage.next, reduceCtorEq, Option.some.injEq,
    Option.ite_none_right_eq_some] at h
  case polling.status v =>
    refine .inr (.inr ⟨by simp, by simp, ?_⟩)
    subst h
    split <;> rfl
  case ready.rxdata v => exact .inl ⟨v, rfl, rfl, h ▸ rfl⟩
  case printing.jtagControl check v =>
    refine .inr (.inr ⟨by simp, by simp, ?_⟩)
    subst h
    split <;> rfl
  case printed.act check a => exact .inr (.inr ⟨by simp, by simp, h.2 ▸ rfl⟩)
  case checking.compare check c =>
    obtain ⟨rfl, rfl⟩ := h
    refine .inr (.inl ⟨c, rfl, rfl, ?_⟩)
    split <;> rfl

/-- The call has read a 'K': it is printing it, comparing it or already back in `main`. -/
def Stage.found : Stage → Bool
  | .printing check | .printed check | .checking check => check == letterK
  | .returned => true
  | .polling | .ready => false

/-- Only a byte from RXDATA can change what the call has found. -/
theorem next_found {st st' : Stage} {e : Event} (h : st.next e = some st')
    (hquiet : (serial (id : Byte → Byte)).takes e = false) : st'.found = st.found := by
  cases st <;> cases e <;> simp only [Stage.next, reduceCtorEq, Option.some.injEq,
    Option.ite_none_right_eq_some] at h
  case polling.status v => subst h; split <;> rfl
  case ready.rxdata v => cases hquiet
  case printing.jtagControl check v => subst h; split <;> rfl
  case printed.act check a => rw [← h.2]; rfl
  case checking.compare check c =>
    rw [← h.2]
    split <;> simp_all [Stage.found]

theorem next_rxdata {st st' : Stage} {v : Word} (h : st.next (.rxdata v) = some st') :
    st = .ready ∧ st' = .printing (low v) := by
  cases st <;> simp only [Stage.next, reduceCtorEq, Option.some.injEq] at h
  exact ⟨rfl, h.symm⟩

/-- Only a poll that sees RRDY makes the call read RXDATA. -/
theorem next_ready {st : Stage} {e : Event} (h : st.next e = some .ready) :
    ∃ v, e = .status v ∧ rrdy v = true := by
  cases st <;> cases e <;> simp only [Stage.next, reduceCtorEq, Option.some.injEq,
    Option.ite_none_right_eq_some] at h
  case polling.status v =>
    cases hv : rrdy v
    · simp [hv] at h
    · exact ⟨v, rfl, hv⟩
  case printing.jtagControl check v => split at h <;> cases h
  case printed.act => cases h.2
  case checking.compare => split at h <;> cases h.2

/-- A `readUart` call together with the receiver. -/
abbrev Call : Type := Line Stage Byte

def callLine : Call → Move Event Byte → Option Call := lineStep (serial id) Stage.next

theorem run_readUart (held : Option Byte) (ms : List (Move Event Byte)) :
    run (lineStep (serial id) callStep) ⟨Networked.readUart, held, []⟩ ms =
      (run callLine ⟨.polling, held, []⟩ ms).map fun t => ⟨t.program.code, t.held, t.read⟩ :=
  run_map Stage.code callStep_code ⟨.polling, held, []⟩ ms

/-- Everything one move of the call can do to the stage. -/
theorem callLine_cases {s t : Call} {m : Move Event Byte} (h : callLine s m = some t) :
    (∃ b, m = .arrive b ∧ t = ⟨s.program, some b, s.read⟩) ∨
    (∃ v b, m = .own (.rxdata v) ∧ s.program = .ready ∧ s.held = some b ∧
      t = ⟨.printing b, none, s.read ++ [b]⟩) ∨
    (∃ e st, m = .own e ∧ (serial id : Port Event Byte).takes e = false ∧
      (st = .ready → s.held.isSome) ∧ s.program.next e = some st ∧ t = ⟨st, s.held, s.read⟩) := by
  cases m with
  | arrive b => exact .inl ⟨b, rfl, by cases h; rfl⟩
  | own e =>
    obtain ⟨hpermit, st, hst, rfl⟩ := lineStep_own h
    by_cases htakes : (serial id : Port Event Byte).takes e = true
    · obtain ⟨v, rfl⟩ : ∃ v, e = .rxdata v := by
        cases e <;> simp only [serial, Bool.false_eq_true] at htakes
        exact ⟨_, rfl⟩
      obtain ⟨b, hb, hlow⟩ : ∃ b, s.held = some b ∧ b = low v := by simpa using hpermit
      obtain ⟨hready, rfl⟩ := next_rxdata hst
      exact .inr (.inl ⟨v, b, rfl, hready, hb, by simp [take, hb, hlow]⟩)
    · have hquiet : (serial id : Port Event Byte).takes e = false := by simpa using htakes
      refine .inr (.inr ⟨e, st, rfl, hquiet, ?_, hst, by simp [take, hquiet]⟩)
      rintro rfl
      obtain ⟨v, rfl, hv⟩ := next_ready hst
      have hrrdy : rrdy v = s.held.isSome := by simpa using hpermit
      rw [← hrrdy, hv]

theorem step_found {s t : Call} {m : Move Event Byte} (hfound : s.program.found = true)
    (h : callLine s m = some t) : t.program.found = true := by
  obtain ⟨b, -, rfl⟩ | ⟨v, b, -, hready, -, -⟩ | ⟨e, st, -, hquiet, -, hst, rfl⟩ :=
    callLine_cases h
  · exact hfound
  · rw [hready] at hfound
    cases hfound
  · exact (next_found hst hquiet).trans hfound

/-- A 'K' that is not overwritten is still held, or the call has found it. -/
theorem run_holding {s t : Call} {ms : List (Move Event Byte)} (hheld : s.held = some letterK)
    (h : run callLine s ms = some t) (hkept : overwritten (serial id) ms = false) :
    t.held = some letterK ∨ t.program.found = true := by
  induction ms generalizing s with
  | nil =>
    simp only [run_nil, Option.some.injEq] at h
    exact .inl (h ▸ hheld)
  | cons m ms ih =>
    obtain ⟨u, hu, ht⟩ := Option.bind_eq_some_iff.mp h
    obtain ⟨b, rfl, -⟩ | ⟨v, b, rfl, hready, hb, rfl⟩ | ⟨e, st, rfl, hquiet, -, -, rfl⟩ :=
      callLine_cases hu
    · cases hkept
    · have hK : b = letterK := by
        rw [hheld] at hb
        exact (Option.some.inj hb).symm
      have hprint : (⟨.printing b, none, s.read ++ [b]⟩ : Call).program.found = true := by
        simp [Stage.found, hK]
      exact .inr (run_invariant (P := fun u : Call => u.program.found = true)
        (fun _ _ _ => step_found) hprint ht)
    · have hrest : overwritten (serial id) ms = false := by
        simpa [overwritten, hquiet] using hkept
      exact @ih ⟨st, s.held, s.read⟩ hheld ht hrest

/-- In every state of a call, the bytes consumed and the byte held are what arrived, a byte
already held included, except the bytes overwritten while they were unread; and a 'K'
was overwritten, is held, or has been found. -/
theorem consumed_arrivals {stale : Option Byte} {ms : List (Move Event Byte)}
    {s : Line (List Stmt) Byte}
    (h : run (lineStep (serial id) callStep) ⟨Networked.readUart, stale, []⟩ ms = some s) :
    s.read ++ s.held.toList = kept (serial id) (since stale ms) ∧
    (s.read ++ s.held.toList = arrivals (since stale ms) ↔
      lost (serial id) (since stale ms) = []) ∧
    ∀ ms₁ ms₂, ms = ms₁ ++ .arrive letterK :: ms₂ →
      overwritten (serial id) ms₂ = true ∨ s.held = some letterK ∨
        ∃ st : Stage, st.found = true ∧ s.program = st.code := by
  have hkept := run_kept h
  rw [List.nil_append] at hkept
  refine ⟨hkept, by rw [hkept]; exact kept_eq_arrivals_iff _ _, ?_⟩
  intro ms₁ ms₂ hms
  rw [run_readUart, hms] at h
  obtain ⟨t, ht, rfl⟩ := Option.map_eq_some_iff.mp h
  obtain ⟨u, -, hu⟩ := run_split ht
  cases ho : overwritten (serial id) ms₂ with
  | true => exact .inl rfl
  | false =>
    have hheld : run callLine ⟨u.program, some letterK, u.read⟩ ms₂ = some t := hu
    obtain hh | hf := run_holding rfl hheld ho
    · exact .inr (.inl hh)
    · exact .inr (.inr ⟨t.program, hf, rfl⟩)

/-- The answer "OK" and its carriage return, while the console takes its time over the 'O'. -/
def lateK : List (Move Event Byte) :=
  [.arrive 0x4F, .own (.status 0x80), .own (.rxdata 0x4F), .own (.jtagControl 0),
   .arrive letterK, .own (.jtagControl 0), .arrive 0x0D, .own (.jtagControl 0x10000),
   .own (.act (.jtagData 0x4F)), .own (.compare 0x4F), .own (.status 0x80), .own (.rxdata 0x0D)]

theorem consumed_arrivals_lateK :
    [0x4F, 0x0D] = kept (serial id) lateK ∧ lost (serial id) lateK ≠ [] := by
  have hcall := @consumed_arrivals none lateK
    ⟨[.jtagWrite 0x0D, .checkByte 0x0D], none, [0x4F, 0x0D]⟩ (by decide)
  refine ⟨hcall.1, fun hlost => ?_⟩
  have hall := hcall.2.1.mpr hlost
  revert hall
  decide

/-- The 'K' arrives during the call and is overwritten before it is read: the call has
consumed the byte after it, holds nothing and has not returned. -/
theorem late_K_lost :
    ∃ s, run (lineStep (serial id) callStep) ⟨Networked.readUart, none, []⟩ lateK = some s ∧
      arrivals lateK = [0x4F, letterK, 0x0D] ∧ s.read = [0x4F, 0x0D] ∧ s.held = none ∧
      s.program ≠ [] :=
  ⟨⟨[.jtagWrite 0x0D, .checkByte 0x0D], none, [0x4F, 0x0D]⟩, by decide⟩

end Receive
