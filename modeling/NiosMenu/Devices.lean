import NiosMenu.Networked

/-!
# Which devices a function works with

Every function of the program works either with the board in front of the user or with
the link to the Wi-Fi module; only `readUart` waits for an answer. What the functions of
one side never do is read off from this, once for all of them.
-/
namespace Devices

open Firmware Networked

/-- Statements for the display, the LEDs and the time between them. -/
def onBoard : Stmt → Bool
  | .act (.usleep _) | .act (.lcd _ _) | .act (.leds _) => true
  | _ => false

/-- Statements that send to the Wi-Fi module or to the console. -/
def onLink : Stmt → Bool
  | .act (.usleep _) | .act (.txdata _) | .pollTrdy | .jtagWrite _ => true
  | _ => false

@[simp] theorem onBoard_usleep (us : Nat) : onBoard (usleep us) = true := rfl
@[simp] theorem onBoard_lcd (a b : Word) : onBoard (altCiLcd0 a b) = true := rfl
@[simp] theorem onBoard_leds (d : Word) : onBoard (iowrLeds d) = true := rfl
@[simp] theorem onLink_usleep (us : Nat) : onLink (usleep us) = true := rfl
@[simp] theorem onLink_txdata (d : Word) : onLink (iowrTxdata d) = true := rfl
@[simp] theorem onLink_pollTrdy : onLink .pollTrdy = true := rfl
@[simp] theorem onLink_jtagWrite (c : Byte) : onLink (.jtagWrite c) = true := rfl

/-- The statements that the functions of the program consist of. -/
theorem written_of_body {s : Stmt} (h : onBoard s = true ∨ onLink s = true ∨ s = .pollRrdy) :
    s.written = true := by
  obtain hboard | hlink | rfl := h
  · cases s <;> first | rfl | cases hboard
  · cases s <;> first | rfl | cases hlink
  · rfl

theorem written_of_devices {l : List Stmt} (h : ∀ s ∈ l, onBoard s = true ∨ onLink s = true) :
    ∀ s ∈ l, s.written = true := fun s hs => written_of_body ((h s hs).imp_right .inl)

theorem written_of_onBoard {l : List Stmt} (h : ∀ s ∈ l, onBoard s = true) :
    ∀ s ∈ l, s.written = true := written_of_devices fun s hs => .inl (h s hs)

theorem forLoop_all {p : Stmt → Prop} {n : Int} {body : Nat → List Stmt}
    (h : ∀ i, ∀ s ∈ body i, p s) : ∀ s ∈ forLoop n body, p s := by
  intro s hs
  obtain ⟨i, -, hi⟩ := List.mem_flatMap.mp hs
  exact h i s hi

/-! ## The board -/

theorem initializeLcd_onBoard : ∀ s ∈ initializeLcd, onBoard s = true := by
  simp [initializeLcd]

theorem imprime_onBoard (opcao : List Byte) (size : Int) :
    ∀ s ∈ imprime opcao size, onBoard s = true := by
  simp only [imprime, List.forall_mem_append]
  exact ⟨⟨by simp, forLoop_all fun i => by simp⟩, by simp⟩

theorem onLed_onBoard (count : Int) : ∀ s ∈ onLed count, onBoard s = true := by
  unfold onLed
  split <;> simp

theorem onMessage_onBoard (count : Int) : ∀ s ∈ onMessage count, onBoard s = true := by
  unfold onMessage
  split <;> first | exact imprime_onBoard _ _ | simp

/-! ## The link -/

theorem writenUart_onLink (vetor : List Byte) (tamanho : Int) :
    ∀ s ∈ writenUart vetor tamanho, onLink s = true := by
  simp only [writenUart, List.forall_mem_append]
  exact ⟨⟨by simp, forLoop_all fun i => by simp⟩, by simp⟩

theorem writenUartQuick_onLink (vetor : Byte) (tamanho : Int) :
    ∀ s ∈ writenUartQuick vetor tamanho, onLink s = true := by
  simp only [writenUartQuick, List.forall_mem_append]
  exact ⟨by simp, forLoop_all fun i => by simp⟩

theorem connectMQTT_onLink : ∀ s ∈ connectMQTT, onLink s = true := by
  simp only [connectMQTT, List.forall_mem_append, and_assoc]
  refine ⟨writenUart_onLink _ _, by simp, ?_, by simp⟩
  exact forLoop_all fun z => writenUartQuick_onLink _ _

theorem publishMQTT_onLink (publish : List Byte) (size : Int) :
    ∀ s ∈ publishMQTT publish size, onLink s = true := by
  have hsend : ∀ (v : List Byte) (n : Int), ∀ s ∈ forLoop n
      (fun z => .jtagWrite (v.getD z 0) :: writenUartQuick (v.getD z 0) 1), onLink s = true := by
    intro v n
    apply forLoop_all
    exact fun z => List.forall_mem_cons.mpr ⟨rfl, writenUartQuick_onLink _ _⟩
  have hpause : ∀ s ∈ [usleep 1000000], onLink s = true := by simp
  have hclose : ∀ s ∈ [iowrTxdata 0x0D, usleep 1000, iowrTxdata 0x0A, usleep 1000000],
      onLink s = true := by simp
  simp only [publishMQTT, List.forall_mem_append, and_assoc]
  exact ⟨hpause, writenUart_onLink _ _, hpause, hsend publish size, hclose,
    writenUart_onLink _ _, hpause, hsend _ _, hclose⟩

theorem altPrintf_onLink (text : String) : ∀ s ∈ altPrintf text, onLink s = true := by
  simp [altPrintf]

/-- What a selection does, for any value of count: the answer and the packet of one option. -/
theorem onMessageSelected_cases (count : Int) :
    onMessageSelected count = [] ∨ ∃ answer publish,
      onMessageSelected count = imprime answer (sizeof answer) ++ publishMQTT publish 24 := by
  unfold onMessageSelected
  split
  · exact .inr ⟨answer1, publish1, rfl⟩
  · exact .inr ⟨answer2, publish2, rfl⟩
  · exact .inr ⟨answer3, publish3, rfl⟩
  · exact .inr ⟨answer4, publish4, rfl⟩
  · exact .inr ⟨answer5, publish5, rfl⟩
  · exact .inl rfl

theorem onMessageSelected_devices (count : Int) :
    ∀ s ∈ onMessageSelected count, onBoard s = true ∨ onLink s = true := by
  obtain hnone | ⟨answer, publish, hsome⟩ := onMessageSelected_cases count
  · simp [hnone]
  · rw [hsome, List.forall_mem_append]
    exact ⟨fun s hs => .inl (imprime_onBoard _ _ s hs),
      fun s hs => .inr (publishMQTT_onLink _ _ s hs)⟩

end Devices
