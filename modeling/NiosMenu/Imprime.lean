import NiosMenu.Display
import NiosMenu.LcdTiming
import NiosMenu.Receive

/-!
# `imprime` with any text

A call shows its text on the first line whatever the module still held back and whatever
stood on the display before: the pending command is executed ahead of the call's own
home and clear, and the last character leaves the module with the no-effect 0x00.
-/
namespace Imprime

open Firmware Reactive Devices Receive LcdModule LcdBus LcdController LcdTiming Display

/-! ## A call on its own -/

/-- Nothing makes a call for the board wait: it returns after exactly its own accesses. -/
theorem board_returned {p : List Stmt} (h : ∀ s ∈ p, onBoard s = true) (es : List Event) :
    run callStep p es = some [] ↔ es = p.flatMap serve := by
  induction p generalizing es with
  | nil => cases es <;> simp [callStep]
  | cons s p ih =>
    obtain ⟨a, rfl⟩ : ∃ a, s = .act a := by
      have hs := h s (by simp)
      cases s <;> first | exact ⟨_, rfl⟩ | cases hs
    cases es with
    | nil => simp [serve]
    | cons e es =>
      have hrest := ih (fun s hs => h s (by simp [hs])) es
      by_cases he : e = .act a
      · subst he
        simpa [callStep, micro, serve] using hrest
      · have hnone : micro (.act a) e = none := by
          cases e <;> simp_all [micro]
        simp [callStep, hnone, serve, he]

theorem imprime_returned (v : List Byte) (size : Int) :
    ∃! es, run callStep (Networked.imprime v size) es = some [] := by
  have hreturned := board_returned (imprime_onBoard v size)
  exact ⟨_, (hreturned _).mpr rfl, fun es => (hreturned es).mp⟩

/-- The custom instructions and pauses of a call that has returned are those of its text. -/
theorem returned_ops {p : List Stmt} {es : List Event} (h : run callStep p es = some []) :
    lcdOps es = ops p := by
  have hall := call_accesses busOp (fun _ => rfl) h
  rw [List.flatMap_nil, List.append_nil] at hall
  exact hall

theorem issued_ops (t : Nat) (p : List Stmt) :
    (issued t (ops p)).map Prod.snd = p.flatMap (owing lcdCommand []) := by
  induction p generalizing t with
  | nil => rfl
  | cons s p ih =>
    cases s with
    | act a => cases a <;> simp [ops, busOp, lcdCommand, issued] <;> exact ih _
    | _ => exact ih t

/-- `imprime` on an array whose reads are checked; none is a read behind its end. -/
def imprimeChecked (opcao : List Byte) (size : Int) : Option (List Stmt) := do
  let loop ← (List.range (size - 1).toNat).mapM fun i => do
    let c ← opcao[i]?
    pure [usleep 2000, altCiLcd0 0x1 (promote c)]
  pure ([usleep 2000,
   altCiLcd0 0x0 0x02,
   usleep 2000,
   altCiLcd0 0x0 0x01] ++
  loop.flatten ++
  [usleep 2000,
   altCiLcd0 0x0 0x00])

theorem mapM_checked {f : Nat → Option α} {g : Nat → α} {l : List Nat}
    (h : ∀ i ∈ l, f i = some (g i)) : l.mapM f = some (l.map g) := by
  induction l with
  | nil => rfl
  | cons i l ih =>
    have hfirst := h i (by simp)
    have hrest := ih fun j hj => h j (by simp [hj])
    rw [List.mapM_cons, hfirst, hrest]
    rfl

/-- The call needs the elements before the last one of its size, and no other. -/
theorem imprimeChecked_take {v w : List Byte} {size : Int} (hsize : (size - 1).toNat ≤ v.length)
    (hw : w.take (size - 1).toNat = v.take (size - 1).toNat) :
    imprimeChecked w size = some (Networked.imprime v size) := by
  have hread : ∀ i ∈ List.range (size - 1).toNat,
      (do let c ← w[i]?; pure [usleep 2000, altCiLcd0 0x1 (promote c)] : Option (List Stmt)) =
        some [usleep 2000, altCiLcd0 0x1 (charAt v i)] := by
    intro i hi
    have hlt : i < (size - 1).toNat := List.mem_range.mp hi
    have hv : v[i]? = some (v.getD i 0) := by
      simp [show i < v.length by omega]
    have hsame : w[i]? = v[i]? := by
      rw [← List.getElem?_take_of_lt hlt, hw, List.getElem?_take_of_lt hlt]
    rw [hsame, hv]
    rfl
  rw [imprimeChecked, mapM_checked hread]
  simp [Networked.imprime, forLoop, List.flatMap]

/-! ## Before and behind a call -/

/-- The commands of a call: a character, 0x00, 0x01 or 0x02. -/
def Printing (c : Command) : Prop :=
  (∃ b, c = character b) ∨ c = noEffect ∨ c = clear ∨ c = home

/-- Where a call may begin: between two instructions, with at most a command of this kind
still in the module and the cursor set to move right. -/
structure Prior (r : Regs) (d : Controller) : Prop where
  state : r.state = false
  leftover : ∀ c, held r = some c → Printing c
  increment : d.increment = true

theorem printing_increment {d : Controller} {cs : List Command} (h : ∀ c ∈ cs, Printing c)
    (hd : d.increment = true) : (execAll d cs).increment = true := by
  induction cs generalizing d with
  | nil => exact hd
  | cons c cs ih =>
    rw [execAll_cons]
    apply ih fun c' hc' => h c' (by simp [hc'])
    obtain ⟨b, rfl⟩ | rfl | rfl | rfl := h c (by simp)
    · exact hd
    · exact hd
    · exact hd
    · exact hd

theorem imprimeCommands_printing (s : List Byte) : ∀ c ∈ imprimeCommands s, Printing c := by
  intro c hc
  simp only [imprimeCommands, List.mem_append, List.mem_cons, List.mem_map, List.not_mem_nil,
    or_false] at hc
  obtain ((rfl | rfl) | ⟨b, -, rfl⟩) | rfl := hc
  · exact .inr (.inr (.inr rfl))
  · exact .inr (.inr (.inl rfl))
  · exact .inl ⟨b, rfl⟩
  · exact .inr (.inl rfl)

variable {r : Regs} {d : Controller} {t : Nat} {is : List (Nat × Clock)}

/-- Operations that issue nothing else lead from such a state to such a state. -/
theorem printing_prior {more : List Op} (hclocks : Carries t more is) (hprior : Prior r d)
    (hmore : ∀ c ∈ (issued t more).map Prod.snd, Printing c) :
    Prior (LcdModule.run r (is.map Prod.snd)) (execAll d (falls r (is.map Prod.snd))) := by
  obtain ⟨hfalls, hheld⟩ := carries_falls hclocks hprior.state
  refine ⟨carries_state hclocks hprior.state, ?_, ?_⟩
  · intro c hc
    rw [hheld] at hc
    obtain hlast | ⟨-, hpending⟩ := Option.or_eq_some_iff.mp hc
    · exact hmore c (List.mem_of_getLast? hlast)
    · exact hprior.leftover c hpending
  · rw [hfalls]
    apply printing_increment _ hprior.increment
    intro c hc
    obtain hpending | hissued := List.mem_append.mp (List.dropLast_subset _ hc)
    · exact hprior.leftover c (Option.mem_toList.mp hpending)
    · exact hmore c hissued

/-- Delivery of a call: what was held first, then all of its commands but the last one. -/
theorem imprime_falls {v : List Byte} {size : Int} (hlen : size - 1 ≤ v.length)
    (hclocks : Carries t (ops (Networked.imprime v size)) is) (hstate : r.state = false) :
    falls r (is.map Prod.snd) =
        (held r).toList ++ ([home, clear] ++ (v.take (size - 1).toNat).map character) ∧
      held (LcdModule.run r (is.map Prod.snd)) = some noEffect := by
  obtain ⟨hfalls, hheld⟩ := carries_falls hclocks hstate
  rw [issued_ops, imprime_commands v size hlen] at hfalls hheld
  constructor
  · rw [hfalls, imprimeCommands, ← List.append_assoc, List.dropLast_concat]
  · have hlast : (imprimeCommands (v.take (size - 1).toNat)).getLast? = some noEffect :=
      imprimeCommands_last [] _
    rw [hheld, hlast, Option.some_or]

theorem imprime_typed {v : List Byte} {size : Int} (hlen : size - 1 ≤ v.length) (hline : size ≤ 80)
    (hclocks : Carries t (ops (Networked.imprime v size)) is) (hprior : Prior r d) :
    Typed (execAll d (falls r (is.map Prod.snd))) (v.take (size - 1).toNat) := by
  have hpending : (execAll d (held r).toList).increment = true :=
    printing_increment (fun c hc => hprior.leftover c (Option.mem_toList.mp hc)) hprior.increment
  have hshort : (v.take (size - 1).toNat).length < 80 := by
    rw [List.length_take]
    omega
  have htyped := typed_imprime _ hpending _ hshort
  rw [imprimeCommands, execAll_append, execAll_cons, exec_noEffect, execAll_nil] at htyped
  rw [(imprime_falls hlen hclocks hprior.state).1, execAll_append]
  exact htyped

/-- The two lines of the display behind a call. -/
theorem imprime_lines {v : List Byte} {size : Int} (hlen : size ≤ sizeof v)
    (hline : size - 1 ≤ 40) (hclocks : Carries t (ops (Networked.imprime v size)) is)
    (hprior : Prior r d) :
    firstLine (execAll d (falls r (is.map Prod.snd))) =
        v.take (size - 1).toNat ++ List.replicate (40 - (size - 1).toNat) blank ∧
      secondLine (execAll d (falls r (is.map Prod.snd))) = List.replicate 40 blank := by
  rw [sizeof] at hlen
  have hlength : (v.take (size - 1).toNat).length = (size - 1).toNat :=
    List.length_take_of_le (by omega)
  have htyped := imprime_typed (by omega) (by omega) hclocks hprior
  have hlines := shows_lines htyped.shows (by omega)
  rw [hlength] at hlines
  exact hlines

/-- `imprime` for every text of at most one line: it returns, and from then on the first line
holds the elements before the last one of its size, nothing else stands on the display and
only the no-effect 0x00 is pending; on any array that has those elements, with whatever or
nothing behind them, every read of the call succeeds. -/
theorem imprime_shows {v : List Byte} {size : Int} (hlen : size ≤ sizeof v)
    (hline : size - 1 ≤ 40) :
    (∃! es, run callStep (Networked.imprime v size) es = some []) ∧
      (∀ es, run callStep (Networked.imprime v size) es = some [] →
        ∀ r d, Prior r d → ∀ t is, Carries t (lcdOps es) is →
        firstLine (execAll d (falls r (is.map Prod.snd))) =
            v.take (size - 1).toNat ++ List.replicate (40 - (size - 1).toNat) blank ∧
          secondLine (execAll d (falls r (is.map Prod.snd))) = List.replicate 40 blank ∧
          held (LcdModule.run r (is.map Prod.snd)) = some noEffect) ∧
      ∀ w : List Byte, w.take (size - 1).toNat = v.take (size - 1).toNat →
        imprimeChecked w size = some (Networked.imprime v size) := by
  have hbound : size ≤ v.length := hlen
  refine ⟨imprime_returned v size, ?_, fun w => imprimeChecked_take (by omega)⟩
  intro es hes r d hprior t is hclocks
  rw [returned_ops hes] at hclocks
  obtain ⟨hfirst, hsecond⟩ := imprime_lines hlen hline hclocks hprior
  exact ⟨hfirst, hsecond, (imprime_falls (by omega) hclocks hprior.state).2⟩

/-- "Hi" over a full screen, with the cursor in the last column and another program's
character still in the module. -/
theorem imprime_shows_Hi :
    firstLine (execAll ⟨fun _ => 0x58, 79, true⟩
      (falls ⟨true, false, true, 0x58⟩ ((shortest 0
        (lcdOps ((Networked.imprime (cString "Hi") 3).flatMap serve))).map Prod.snd))) =
      ascii "Hi" ++ List.replicate 38 blank ∧
    imprimeChecked (ascii "Hi") 3 = some (Networked.imprime (cString "Hi") 3) := by
  have hprior : Prior ⟨true, false, true, 0x58⟩ ⟨fun _ => 0x58, 79, true⟩ := by
    refine ⟨rfl, ?_, rfl⟩
    intro c hc
    exact .inl ⟨0x58, (Option.some.inj hc).symm⟩
  obtain ⟨-, hshows, hreads⟩ := @imprime_shows (cString "Hi") 3 (by decide) (by decide)
  have hreturned := (board_returned (imprime_onBoard (cString "Hi") 3) _).mpr rfl
  exact ⟨(hshows _ hreturned _ _ hprior 0 _ (carries_shortest 0 _)).1, hreads _ rfl⟩

/-! ## Calls behind the set-up -/

/-- The set-up leaves a call its clear 0x01 and a cursor that moves right. -/
theorem setup_prior (hstate : r.state = false)
    (hclocks : Carries t (ops Networked.initializeLcd) is) :
    Prior (LcdModule.run r (is.map Prod.snd)) (execAll d (falls r (is.map Prod.snd))) := by
  obtain ⟨hfalls, hheld⟩ := carries_falls hclocks hstate
  have hissued : (issued t (ops Networked.initializeLcd)).map Prod.snd = initCommands :=
    issued_ops t _
  have hlast : initCommands.getLast? = some clear := rfl
  rw [hissued] at hfalls hheld
  rw [hlast, Option.some_or] at hheld
  refine ⟨carries_state hclocks hstate, ?_, ?_⟩
  · intro c hc
    rw [hheld] at hc
    exact .inr (.inr (.inl (Option.some.inj hc).symm))
  · rw [hfalls, List.dropLast_append_of_ne_nil (by simp [initCommands]), execAll_append]
    rfl

/-- Calls leave the module and the display as the next one may find them. -/
theorem calls_prior {calls : List (List Byte × Int)}
    (hlen : ∀ call ∈ calls, call.2 ≤ sizeof call.1)
    (hclocks : Carries t (ops (calls.flatMap fun call => Networked.imprime call.1 call.2)) is)
    (hprior : Prior r d) :
    Prior (LcdModule.run r (is.map Prod.snd)) (execAll d (falls r (is.map Prod.snd))) := by
  apply printing_prior hclocks hprior
  intro c hc
  rw [issued_ops, List.flatMap_assoc] at hc
  obtain ⟨call, hcall, hown⟩ := List.mem_flatMap.mp hc
  have hbound : call.2 ≤ call.1.length := hlen call hcall
  rw [imprime_commands call.1 call.2 (by omega)] at hown
  exact imprimeCommands_printing _ c hown

/-- After the set-up and any calls, the display shows the text of the last call. -/
theorem program_shows {calls : List (List Byte × Int)}
    (hcalls : ∀ call ∈ calls, call.2 ≤ sizeof call.1) {v : List Byte} {size : Int}
    (hlen : size ≤ sizeof v) (hline : size - 1 ≤ 40) (hstate : r.state = false)
    (hclocks : Carries t (ops (program (calls ++ [(v, size)]))) is) :
    firstLine (execAll d (falls r (is.map Prod.snd))) =
        v.take (size - 1).toNat ++ List.replicate (40 - (size - 1).toNat) blank ∧
      secondLine (execAll d (falls r (is.map Prod.snd))) = List.replicate 40 blank ∧
      held (LcdModule.run r (is.map Prod.snd)) = some noEffect := by
  have hprogram : program (calls ++ [(v, size)]) = Networked.initializeLcd ++
      (calls.flatMap (fun call => Networked.imprime call.1 call.2) ++
        Networked.imprime v size) := by
    simp [program]
  have hbound : size ≤ v.length := hlen
  rw [hprogram, ops_append, ops_append] at hclocks
  obtain ⟨t₁, is₁, _, rfl, hsetup, hrest⟩ := carries_split hclocks
  obtain ⟨t₂, is₂, is₃, rfl, hbefore, hcall⟩ := carries_split hrest
  have hprior := calls_prior hcalls hbefore (setup_prior (d := d) hstate hsetup)
  obtain ⟨hfirst, hsecond⟩ := imprime_lines hlen hline hcall hprior
  have hheld := (imprime_falls (by omega) hcall hprior.state).2
  simp only [List.map_append, LcdModule.run_append, falls_append, execAll_append]
  exact ⟨hfirst, hsecond, hheld⟩

/-- "Hi" behind the set-up and the first option. -/
theorem program_shows_Hi :
    firstLine (execAll ⟨fun _ => 0x58, 79, false⟩
      (falls powerUp ((shortest 0 (ops (program ([(Networked.opcao1, 9)] ++
        [(cString "Hi", 3)])))).map Prod.snd))) =
      ascii "Hi" ++ List.replicate 38 blank := by
  have hcalls : ∀ call ∈ [(Networked.opcao1, (9 : Int))], call.2 ≤ sizeof call.1 := by decide
  exact (program_shows hcalls (by decide) (by decide) rfl (carries_shortest 0 _)).1

end Imprime
