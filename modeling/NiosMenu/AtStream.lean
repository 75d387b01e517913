import NiosMenu.Framing
import NiosMenu.Menu

/-!
# What the Wi-Fi module receives

The bytes written to TXDATA, cut into AT command lines and announced payloads. At
every poll of the push buttons they are the three start-up commands and one complete
block of MQTT traffic for each selection episode.
-/
namespace AtStream

open Firmware Reactive Framing Menu Devices

def digit (b : Byte) : Option Nat :=
  if 0x30 ≤ b.toNat ∧ b.toNat ≤ 0x39 then some (b.toNat - 0x30) else none

def decimal (l : List Byte) : Option Nat :=
  if l = [] then none else l.foldlM (fun n b => (digit b).map (10 * n + ·)) 0

/-- The payload length that a command line announces: the n of 'AT+CIPSEND=n'. -/
def cipsend (l : List Byte) : Option Nat :=
  if (ascii "AT+CIPSEND=").isPrefixOf l then decimal (l.drop (ascii "AT+CIPSEND=").length)
  else none

def atFormat : Format Byte := ⟨0x0D, 0x0A, cipsend⟩

/-- The transmit side of a device access. -/
def sent : Action → List Byte
  | .txdata d => [low d]
  | _ => []

/-- The low bytes of the values written to TXDATA so far. -/
def txBytes (es : List Event) : List Byte := (accesses es).flatMap sent

/-- One MQTT control packet with a one-byte Remaining Length and nothing after it. -/
def completePacket : List Byte → Bool
  | _ :: remaining :: body => remaining.toNat < 128 && remaining.toNat == body.length
  | _ => false

def publish : Fin 5 → List Byte
  | 0 => Networked.publish1
  | 1 => Networked.publish2
  | 2 => Networked.publish3
  | 3 => Networked.publish4
  | 4 => Networked.publish5

def command (s : String) : Item Byte := ⟨ascii s, none⟩
def packet (s : String) (p : List Byte) : Item Byte := ⟨ascii s, some p⟩
def emptyLine : Item Byte := ⟨[], none⟩

def startItems : List (Item Byte) :=
  [command "AT", command "AT+CWMODE=1", command "AT+CWJAP=\"GT-I9192\",\"[samsung]\""]

/-- The traffic of one selection episode of the given option. -/
def episodeItems (o : Fin 5) : List (Item Byte) :=
  [command "AT+CIPSTART=\"TCP\",\"192.168.43.137\",1883",
   packet "AT+CIPSEND=20" Networked.connect, emptyLine,
   packet "AT+CIPSEND=24" (publish o), emptyLine,
   packet "AT+CIPSEND=2" Networked.disconnect, emptyLine]

theorem startItems_ok : ∀ i ∈ startItems, i.Ok atFormat := by decide

theorem episodeItems_ok (o : Fin 5) : ∀ i ∈ episodeItems o, i.Ok atFormat := by
  revert o
  decide

def transmitted : Emission Networked.main Byte :=
  emission Networked.loop sent (fun _ => []) [] fun _ => rfl

@[simp] theorem transmitted_asked (b : Word) : transmitted.asked b = [] := rfl

theorem emitted_transmitted (es : List Event) : es.flatMap transmitted.emit = txBytes es :=
  emitted_accesses sent es

/-! ## The bytes of each function -/

theorem board_wire {l : List Stmt} (h : ∀ s ∈ l, onBoard s = true) :
    l.flatMap transmitted.owed = [] := by
  apply List.flatMap_eq_nil_iff.mpr
  intro s hs
  have hboard := h s hs
  cases s with
  | act a => cases a <;> first | rfl | cases hboard
  | _ => cases hboard

theorem writenUart_wire (v : List Byte) (n : Int) (hn : n ≤ v.length) :
    (Networked.writenUart v n).flatMap transmitted.owed = v.take n.toNat ++ [0x0D, 0x0A] := by
  have hloop := forLoop_take v n hn fun c => [iowrTxdata (promote c), usleep 1000]
  have hone : ∀ c : Byte, [iowrTxdata (promote c), usleep 1000].flatMap transmitted.owed = [c] := by
    intro c
    simp [transmitted, emission, sent]
  simp only [Networked.writenUart, charAt, hloop, List.flatMap_append, List.flatMap_assoc, hone,
    List.flatMap_singleton']
  rfl

/-- A string literal sent with its `strlen` is one command line. -/
theorem command_wire (text : String) {v : List Byte} (hv : v = cString text)
    (htext : 0 ∉ ascii text) :
    (Networked.writenUart v (strlen v)).flatMap transmitted.owed =
      (command text).wire atFormat := by
  have hlen := strlen_cString htext
  have hle : strlen (cString text) ≤ (cString text).length := by
    rw [hlen, cString, List.length_append]
    omega
  rw [hv, writenUart_wire _ _ hle, hlen, cString, Int.toNat_natCast, List.take_left]
  exact (List.append_nil _).symm

theorem writenUartQuick_wire (c : Byte) :
    (Networked.writenUartQuick c 1).flatMap transmitted.owed = [c] := by
  simp [Networked.writenUartQuick, forLoop, transmitted, emission, sent]

/-- A loop that sends one byte for each element sends the whole array. -/
theorem payload_wire (v : List Byte) (n : Int) (hn : n = v.length) {body : Byte → List Stmt}
    (hbody : ∀ c, (body c).flatMap transmitted.owed = [c]) :
    (forLoop n fun z => body (v.getD z 0)).flatMap transmitted.owed = v := by
  rw [forLoop_take v n (Int.le_of_eq hn), List.flatMap_assoc]
  simp only [hbody, List.flatMap_singleton', hn, Int.toNat_natCast, List.take_length]

/-- The length announced for CONNECT is the length of its array. -/
theorem connectMQTT_wire :
    Networked.connectMQTT.flatMap transmitted.owed =
      [packet "AT+CIPSEND=20" Networked.connect, emptyLine].flatMap (Item.wire atFormat) := by
  have hcommand := command_wire "AT+CIPSEND=20" (v := Networked.comandoSendC) rfl (by decide)
  have hpayload := payload_wire Networked.connect (sizeof Networked.connect) rfl
    writenUartQuick_wire
  simp only [Networked.connectMQTT, List.flatMap_append, hcommand, hpayload]
  rfl

/-- A PUBLISH packet of the announced length is sent whole, and DISCONNECT after it. -/
theorem publishMQTT_wire (publish : List Byte) (size : Int) (hsize : size = publish.length) :
    (Networked.publishMQTT publish size).flatMap transmitted.owed =
      [packet "AT+CIPSEND=24" publish, emptyLine, packet "AT+CIPSEND=2" Networked.disconnect,
        emptyLine].flatMap (Item.wire atFormat) := by
  have hsend := command_wire "AT+CIPSEND=24" (v := Networked.comandoSendP) rfl (by decide)
  have hend := command_wire "AT+CIPSEND=2" (v := Networked.comandoD) rfl (by decide)
  have hbody : ∀ c : Byte, (.jtagWrite c :: Networked.writenUartQuick c 1).flatMap
      transmitted.owed = [c] := writenUartQuick_wire
  have hpublish := payload_wire publish size hsize hbody
  have hdisconnect := payload_wire Networked.disconnect (sizeof Networked.disconnect) rfl hbody
  have hpause : ([usleep 1000000] : List Stmt).flatMap transmitted.owed = [] := rfl
  have hclose : ([iowrTxdata 0x0D, usleep 1000, iowrTxdata 0x0A, usleep 1000000] :
      List Stmt).flatMap transmitted.owed = [0x0D, 0x0A] := rfl
  simp only [Networked.publishMQTT, List.flatMap_append, hsend, hend, hpublish, hdisconnect,
    hpause, hclose]
  simp [Item.wire, packet, command, emptyLine, atFormat]

theorem onMessageSelected_publish (o : Fin 5) : ∃ v n, Networked.onMessageSelected o.val =
    Networked.imprime v n ++ Networked.publishMQTT (publish o) (publish o).length := by
  fin_cases o <;> exact ⟨_, _, rfl⟩

/-- The start-up sends its three command lines. -/
theorem start_wire :
    Networked.start.flatMap transmitted.owed = startItems.flatMap (Item.wire atFormat) := by
  have hattention := command_wire "AT" (v := Networked.comandoAT0) rfl (by decide)
  have hmode := command_wire "AT+CWMODE=1" (v := Networked.comandoAT1) rfl (by decide)
  have hjoin := command_wire "AT+CWJAP=\"GT-I9192\",\"[samsung]\"" (v := Networked.comandoAT2) rfl
    (by decide)
  have hsetup := board_wire initializeLcd_onBoard
  have hmessage := board_wire (onMessage_onBoard 0)
  simp only [Networked.start, List.flatMap_append, hattention, hmode, hjoin, hsetup, hmessage]
  simp [startItems, transmitted, emission, sent, Networked.readUart]

/-- A selection up to its `readUart` call. -/
theorem opening_wire :
    ([usleep 100000] ++ Networked.writenUart Networked.comandoAT3
      (strlen Networked.comandoAT3)).flatMap transmitted.owed =
        (command "AT+CIPSTART=\"TCP\",\"192.168.43.137\",1883").wire atFormat := by
  rw [List.flatMap_append, command_wire _ (v := Networked.comandoAT3) rfl (by decide)]
  rfl

/-- A selection behind its `readUart` call. -/
theorem traffic_wire (o : Fin 5) :
    ([usleep 1000000] ++ Networked.connectMQTT ++ Networked.onMessageSelected o.val ++
      altPrintf "Message sent").flatMap transmitted.owed =
        (episodeItems o).tail.flatMap (Item.wire atFormat) := by
  obtain ⟨v, n, hselected⟩ := onMessageSelected_publish o
  have hshow := board_wire (imprime_onBoard v n)
  have hpublish := publishMQTT_wire (publish o) _ rfl
  have hpause : ([usleep 1000000] : List Stmt).flatMap transmitted.owed = [] := rfl
  have hprint : (altPrintf "Message sent").flatMap transmitted.owed = [] := rfl
  simp only [hselected, List.flatMap_append, hshow, hpublish, hpause, hprint, connectMQTT_wire,
    List.nil_append, List.append_nil]
  rw [← List.flatMap_append]
  rfl

/-- Only the selection branch of the menu transmits, and what it transmits is one block. -/
theorem script_wire (g : Gesture) (o : Fin 5) :
    (networkedScript g o.val).flatMap transmitted.owed =
      if g = .select then (episodeItems o).flatMap (Item.wire atFormat) else [] := by
  by_cases hg : g = .select
  · have hread : Networked.readUart.flatMap transmitted.owed = [] := rfl
    have htraffic := traffic_wire o
    simp only [List.flatMap_append, List.append_assoc] at htraffic
    rw [if_pos hg, hg, networkedScript]
    simp only [List.flatMap_append, List.append_assoc, hread, List.nil_append, htraffic]
    rw [← List.append_assoc, ← List.flatMap_append, opening_wire]
    rfl
  · rw [if_neg hg, board_wire (script_onBoard hg o.val)]

/-- The bytes of every run, up to what the current script still has to write. -/
theorem run_wire {es : List Event} {c : Config Stmt Poll}
    (h : run (step Networked.main) Networked.boot es = some c) :
    txBytes es ++ c.todo.flatMap transmitted.owed =
      (startItems ++ (episodes first (buttons es)).flatMap episodeItems).flatMap
        (Item.wire atFormat) := by
  have hrun := transmitted.run_emit h
  have hout := outputs_poll networked_loop transmitted first (buttons es)
  simp only [transmitted_asked, List.nil_append, script_wire, replies_select] at hout
  rw [emitted_transmitted] at hrun
  rw [hrun, List.flatMap_append, ← start_wire, List.flatMap_assoc]
  exact congrArg _ hout

def startFrames : List (Frame Byte) :=
  [.line (ascii "AT"), .line (ascii "AT+CWMODE=1"),
   .line (ascii "AT+CWJAP=\"GT-I9192\",\"[samsung]\"")]

/-- The AT+CIPSTART line and three announced payloads, each followed by one empty line. -/
def episodeFrames (o : Fin 5) : List (Frame Byte) :=
  [.line (ascii "AT+CIPSTART=\"TCP\",\"192.168.43.137\",1883"),
   .line (ascii "AT+CIPSEND=20"), .payload Networked.connect, .line [],
   .line (ascii "AT+CIPSEND=24"), .payload (publish o), .line [],
   .line (ascii "AT+CIPSEND=2"), .payload Networked.disconnect, .line []]

theorem items_ok (os : List (Fin 5)) :
    ∀ i ∈ startItems ++ os.flatMap episodeItems, i.Ok atFormat := by
  intro i hi
  obtain hs | he := List.mem_append.mp hi
  · exact startItems_ok i hs
  · obtain ⟨o, -, ho⟩ := List.mem_flatMap.mp he
    exact episodeItems_ok o i ho

theorem items_frames (os : List (Fin 5)) :
    (startItems ++ os.flatMap episodeItems).flatMap Item.frames =
      startFrames ++ os.flatMap episodeFrames := by
  rw [List.flatMap_append, List.flatMap_assoc]
  rfl

theorem episode_packets (o : Fin 5) :
    ∀ p, Frame.payload p ∈ episodeFrames o → completePacket p = true := by
  have hpub : completePacket (publish o) = true := by revert o; decide
  intro p hp
  simp only [episodeFrames, List.mem_cons, reduceCtorEq, Frame.payload.injEq, false_or,
    List.not_mem_nil, or_false] at hp
  obtain rfl | rfl | rfl := hp
  · decide
  · exact hpub
  · decide

/-- At every push-button poll of every run, whatever the UART did, the written bytes parse
completely into the start-up lines and one block for each selection episode. -/
theorem tx_framed {es : List Event} {c : Config Stmt Poll}
    (h : run (step Networked.main) Networked.boot es = some c) (hpoll : c.todo = []) :
    c.ctrl = poll (presses first (buttons es)) ∧
      parse atFormat (txBytes es) =
        some (startFrames ++ (episodes first (buttons es)).flatMap episodeFrames) ∧
      ∀ p, Frame.payload p ∈ startFrames ++ (episodes first (buttons es)).flatMap episodeFrames →
        completePacket p = true := by
  have hw := run_wire h
  rw [hpoll, List.flatMap_nil, List.append_nil] at hw
  refine ⟨networked_ctrl h, ?_, ?_⟩
  · rw [hw, parse_items atFormat _ (items_ok _), items_frames]
  · intro p hp
    obtain hs | he := List.mem_append.mp hp
    · simp [startFrames] at hs
    · obtain ⟨o, -, ho⟩ := List.mem_flatMap.mp he
      exact episode_packets o p ho

theorem tx_framed_oneSelection :
    parse atFormat (txBytes (unblocked [13#32])) = some (startFrames ++ episodeFrames 0) := by
  have hframed := (tx_framed (networked_run [13#32]) rfl).2.1
  have hepisodes : episodes first (buttons (unblocked [13#32])) = [0] := by
    rw [answered_buttons]
    rfl
  rw [hepisodes] at hframed
  exact hframed

end AtStream
