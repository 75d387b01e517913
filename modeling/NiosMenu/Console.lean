import NiosMenu.AltPrintf
import NiosMenu.AtStream
import NiosMenu.Board

/-!
# What the console shows

Every byte that `readUart` takes from RXDATA is echoed, once and in order, up to the 'K'
at which the call returns; between the calls stand the packets and the message that a
selection prints.
-/
namespace Console

open Firmware Reactive Menu AtStream Board
open Devices (onBoard)

/-- What a statement is going to print: a byte of its own, or an answer from the line. -/
inductive Token where
  | own (c : Byte)
  | answer
  deriving DecidableEq, Repr

def printing : Stmt → List Token
  | .act (.jtagData c) | .jtagWrite c => [.own c]
  | .pollRrdy | .readRxdata => [.answer]
  | .checkByte c => if c = letterK then [] else [.answer]
  | _ => []

/-- The text that some tokens print for the bytes read; an answer ends with its first 'K'. -/
inductive Prints : List Token → List Byte → List Byte → Prop where
  | done : Prints [] [] []
  | own {ts : List Token} {bs cs : List Byte} (c : Byte) :
      Prints ts bs cs → Prints (.own c :: ts) bs (c :: cs)
  | answer {ts : List Token} {bs cs : List Byte} (u : List Byte) :
      letterK ∉ u → Prints ts bs cs →
        Prints (.answer :: ts) (u ++ letterK :: bs) (u ++ letterK :: cs)

/-- One more byte of an answer. -/
theorem Prints.echo {ts : List Token} {bs cs : List Byte} (b : Byte)
    (h : Prints ((if b = letterK then [] else [.answer]) ++ ts) bs cs) :
    Prints (.answer :: ts) (b :: bs) (b :: cs) := by
  by_cases hK : b = letterK
  · rw [if_pos hK, List.nil_append] at h
    rw [hK]
    exact .answer [] (by simp) h
  · rw [if_neg hK, List.singleton_append] at h
    cases h with
    | answer u hu hrest => exact .answer (b :: u) (by simp [hu, Ne.symm hK]) hrest

/-- The text on the console. -/
def printed (es : List Event) : List Byte :=
  (accesses es).flatMap fun
    | .jtagData c => [c]
    | _ => []

theorem printed_append (es fs : List Event) : printed (es ++ fs) = printed es ++ printed fs := by
  simp [printed, accesses]

theorem bytesRead_append (es fs : List Event) :
    bytesRead (es ++ fs) = bytesRead es ++ bytesRead fs := List.filterMap_append

/-- What one access prints and reads, before what its statement goes on with. -/
theorem micro_prints {s : Stmt} {e : Event} {l : List Stmt} (h : micro s e = some l)
    {ts : List Token} {bs cs : List Byte} (hprints : Prints (l.flatMap printing ++ ts) bs cs) :
    Prints (printing s ++ ts) (bytesRead [e] ++ bs) (printed [e] ++ cs) := by
  obtain ⟨a, rfl, rfl, rfl⟩ | ⟨v, rfl, rfl, rfl⟩ | ⟨v, rfl, rfl, rfl⟩ | ⟨v, rfl, rfl, rfl⟩ |
    ⟨c, rfl, rfl, rfl⟩ | ⟨c, v, rfl, rfl, rfl⟩ := micro_cases h
  · cases a with
    | jtagData c => exact .own c hprints
    | _ => exact hprints
  · split at hprints <;> exact hprints
  · split at hprints <;> exact hprints
  · cases hprints with
    | own _ hrest => exact Prints.echo (low v) (by simpa [printing] using hrest)
  · rw [printing]
    by_cases hK : c = letterK
    · rw [if_pos hK] at hprints ⊢
      exact hprints
    · rw [if_neg hK] at hprints ⊢
      exact hprints
  · split at hprints <;> exact hprints

/-- What the answers to some button values print. -/
def replied (bs : List Word) : List Token :=
  replies (fun g o _ => (networkedScript g o.val).flatMap printing) first bs

theorem replied_snoc (bs : List Word) (b : Word) :
    replied (bs ++ [b]) = replied bs ++
      (Networked.main.react (poll (presses first bs)) b).1.flatMap printing := by
  rw [replied, replies_append, networked_react]
  simp [replied]

/-- What has been read and printed, before anything that the current script goes on with. -/
def Sofar (es : List Event) (c : Config Stmt Poll) : Prop :=
  c.ctrl = poll (presses first (buttons es)) ∧
  ∀ ts bs cs, Prints (c.todo.flatMap printing ++ ts) bs cs →
    Prints (Networked.start.flatMap printing ++ replied (buttons es) ++ ts)
      (bytesRead es ++ bs) (printed es ++ cs)

theorem sofar_step {es : List Event} {c c' : Config Stmt Poll} {e : Event} (h : Sofar es c)
    (hstep : step Networked.main c e = some c') : Sofar (es ++ [e]) c' := by
  obtain ⟨hctrl, hprints⟩ := h
  have hbuttons : buttons (es ++ [e]) = buttons es ++ buttons [e] := List.filterMap_append
  obtain ⟨s, rest, l, hs, hl, rfl⟩ | ⟨b, hs, hb, rfl⟩ := step_cases hstep
  · have hnone : buttons [e] = [] := by
      have hquiet : heard e = none := micro_not_heard hl
      simp [buttons, hquiet]
    rw [Sofar, hbuttons, hnone, List.append_nil]
    refine ⟨hctrl, fun ts bs cs hafter => ?_⟩
    rw [List.flatMap_append, List.append_assoc] at hafter
    have hbefore := micro_prints hl hafter
    rw [hs, List.flatMap_cons] at hprints
    have hall := hprints ts _ _ (by rw [List.append_assoc]; exact hbefore)
    rwa [bytesRead_append, printed_append, List.append_assoc (bytesRead es),
      List.append_assoc (printed es)]
  · obtain rfl := heard_button hb
    have hone : buttons [Event.button b] = [b] := rfl
    rw [Sofar, hbuttons, hone, replied_snoc]
    refine ⟨?_, fun ts bs cs hafter => ?_⟩
    · rw [hctrl, networked_react]
      simp [presses]
    · rw [hctrl] at hafter
      rw [hs, List.flatMap_nil] at hprints
      have hread : bytesRead (es ++ [.button b]) = bytesRead es := by simp [bytesRead]
      have hprinted : printed (es ++ [.button b]) = printed es := by simp [printed, accesses]
      rw [hread, hprinted, ← List.append_assoc, List.append_assoc _ _ ts]
      exact hprints _ bs cs hafter

theorem sofar_boot : Sofar [] Networked.boot := by
  refine ⟨rfl, fun ts bs cs h => ?_⟩
  have hnone : replied (buttons []) = [] := rfl
  rw [hnone, List.append_nil]
  exact h

/-! ## The texts -/

theorem printing_quiet {l : List Stmt} (h : ∀ s ∈ l, onBoard s = true) :
    l.flatMap printing = [] := by
  apply List.flatMap_eq_nil_iff.mpr
  intro s hs
  have hboard := h s hs
  cases s with
  | act a => cases a <;> first | rfl | cases hboard
  | _ => cases hboard

theorem start_printing : Networked.start.flatMap printing = List.replicate 3 .answer := by
  decide +kernel

theorem select_printing (o : Fin 5) : (networkedScript .select o.val).flatMap printing =
    .answer :: (publish o ++ Networked.disconnect ++ ascii "Message sent").map .own := by
  revert o
  decide +kernel

theorem script_printing (g : Gesture) (o : Fin 5) : (networkedScript g o.val).flatMap printing =
    if g = .select then
      .answer :: (publish o ++ Networked.disconnect ++ ascii "Message sent").map .own
    else [] := by
  by_cases hg : g = .select
  · rw [if_pos hg, hg, select_printing]
  · rw [if_neg hg, printing_quiet (script_onBoard hg o.val)]

theorem replied_episodes (bs : List Word) : replied bs = (episodes first bs).flatMap fun o =>
    .answer :: (publish o ++ Networked.disconnect ++ ascii "Message sent").map .own := by
  rw [← replies_select, replied]
  congr 1
  funext g o b
  exact script_printing g o

/-- What the console shows at every poll of the push buttons, in every run: three answers at the
start, and for each selection an answer, the two packets and the message, where the answers
are the bytes read from RXDATA, each up to its first 'K'. -/
theorem console_shows {es : List Event} {c : Config Stmt Poll}
    (h : run (step Networked.main) Networked.boot es = some c) (hpoll : c.todo = []) :
    Prints (List.replicate 3 .answer ++ (episodes first (buttons es)).flatMap fun o =>
        .answer :: (publish o ++ Networked.disconnect ++ ascii "Message sent").map .own)
      (bytesRead es) (printed es) := by
  have hsofar : Sofar ([] ++ es) c :=
    run_history (fun _ _ _ _ hs hstep => sofar_step hs hstep) sofar_boot h
  have hall := hsofar.2 [] [] [] (by rw [hpoll]; exact .done)
  rwa [List.append_nil, List.append_nil, List.append_nil, start_printing, replied_episodes]
    at hall

/-- One selection of the first option, with the answer 'K' to every command. -/
theorem console_shows_first :
    Prints (List.replicate 3 .answer ++
        .answer :: (Networked.publish1 ++ Networked.disconnect ++ ascii "Message sent").map .own)
      (bytesRead (unblocked [13#32])) (printed (unblocked [13#32])) := by
  have hshows := console_shows (networked_run [13#32]) rfl
  have hepisodes : episodes first (buttons (unblocked [13#32])) = [0] := by
    rw [answered_buttons]
    rfl
  rwa [hepisodes] at hshows

end Console
