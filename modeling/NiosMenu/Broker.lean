import NiosMenu.AtStream
import NiosMenu.Mqtt

/-!
# What the broker receives

The Wi-Fi module opens a TCP connection for every AT+CIPSTART and passes the announced
payloads on to it. Read as MQTT, each connection is one whole session that publishes the
text of the option selected.
-/
namespace Broker

open Firmware Reactive Framing Menu AtStream
open Mqtt (Packet packets)

/-- A line that asks for a new connection. -/
def opens (l : List Byte) : Bool := (ascii "AT+CIPSTART=\"TCP\",").isPrefixOf l

/-- The payload bytes before the first connection, and those of each connection. -/
def connections : List (Framing.Frame Byte) → List Byte × List (List Byte)
  | [] => ([], [])
  | .payload p :: fs => (p ++ (connections fs).1, (connections fs).2)
  | .line l :: fs =>
    if opens l then ([], (connections fs).1 :: (connections fs).2) else connections fs

def topic : List Byte := ascii "teste/teste1"

def message : Fin 5 → List Byte
  | 0 => ascii "CADASTRO"
  | 1 => ascii "LISTAGEM"
  | 2 => ascii "CONFIARA"
  | 3 => ascii "CREDITOS"
  | 4 => ascii "SISTEMAS"

/-- The client "Nios 2" publishes the text of one option. -/
def session (o : Fin 5) : List Packet :=
  [.connect true 20 (ascii "Nios 2"), .publish topic (message o), .disconnect]

/-- The arrays of the program are MQTT packets. -/
theorem write_session (o : Fin 5) :
    (session o).flatMap Packet.write = Networked.connect ++ publish o ++ Networked.disconnect := by
  revert o
  decide +kernel

theorem session_ok (o : Fin 5) : ∀ p ∈ session o, p.Ok := by
  have hmessage : (message o).length < 65536 := by
    revert o
    decide
  simp only [session, List.forall_mem_cons, Packet.Ok, hmessage]
  exact ⟨by decide, by decide, trivial, by simp⟩

theorem packets_session (o : Fin 5) :
    packets (Networked.connect ++ publish o ++ Networked.disconnect) = some (session o) := by
  rw [← write_session]
  exact Mqtt.packets_flatMap (session_ok o)

/-- One block opens one connection and fills it. -/
theorem connections_episode (o : Fin 5) (fs : List (Framing.Frame Byte)) :
    connections (episodeFrames o ++ fs) =
      ([], (Networked.connect ++ publish o ++ Networked.disconnect ++ (connections fs).1) ::
        (connections fs).2) := by
  have hopens : opens (ascii "AT+CIPSTART=\"TCP\",\"192.168.43.137\",1883") = true := by decide
  have hconnect : opens (ascii "AT+CIPSEND=20") = false := by decide
  have hpublish : opens (ascii "AT+CIPSEND=24") = false := by decide
  have hdisconnect : opens (ascii "AT+CIPSEND=2") = false := by decide
  have hempty : opens [] = false := by decide
  simp [episodeFrames, connections, hopens, hconnect, hpublish, hdisconnect, hempty]

theorem connections_blocks (os : List (Fin 5)) :
    connections (os.flatMap episodeFrames) =
      ([], os.map fun o => Networked.connect ++ publish o ++ Networked.disconnect) := by
  induction os with
  | nil => rfl
  | cons o os ih =>
    rw [List.flatMap_cons, connections_episode, ih, List.append_nil]
    rfl

/-- At every poll of the push buttons, whatever the UART and the modem did, each connection so
far is one whole session, in the order of the selections; nothing is sent outside of one. -/
theorem sessions_received {es : List Event} {c : Config Stmt Poll}
    (h : run (step Networked.main) Networked.boot es = some c) (hpoll : c.todo = []) :
    ∃ frames, parse atFormat (txBytes es) = some frames ∧ (connections frames).1 = [] ∧
      (connections frames).2.map packets =
        (episodes first (buttons es)).map fun o => some (session o) := by
  have hwire := run_wire h
  rw [hpoll, List.flatMap_nil, List.append_nil] at hwire
  have hstart : ∀ fs, connections (startFrames ++ fs) = connections fs := by
    have hnone : ∀ l, Framing.Frame.line l ∈ startFrames → opens l = false := by
      simp only [startFrames, List.mem_cons, List.not_mem_nil, Framing.Frame.line.injEq, or_false]
      rintro l (rfl | rfl | rfl) <;> decide
    intro fs
    simp only [startFrames, List.mem_cons, Framing.Frame.line.injEq] at hnone
    simp [startFrames, connections, hnone]
  refine ⟨_, by rw [hwire, parse_items atFormat _ (items_ok _), items_frames], ?_, ?_⟩
  · rw [hstart, connections_blocks]
  · rw [hstart, connections_blocks, List.map_map]
    exact List.map_congr_left fun o _ => packets_session o

/-- The second and the last option, one after the other. -/
theorem sessions_received_two :
    ∃ frames, parse atFormat (txBytes (unblocked [11#32, 13#32, 14#32, 7#32, 7#32, 13#32])) =
        some frames ∧
      (connections frames).2.map packets = [some (session 1), some (session 4)] := by
  obtain ⟨frames, hparse, -, hsessions⟩ :=
    sessions_received (networked_run [11#32, 13#32, 14#32, 7#32, 7#32, 13#32]) rfl
  refine ⟨frames, hparse, ?_⟩
  rw [hsessions, answered_buttons]
  rfl

end Broker
