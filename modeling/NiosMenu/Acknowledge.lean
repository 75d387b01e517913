import NiosMenu.AtStream
import NiosMenu.Recognize

/-!
# Which answer a `readUart` call takes for its own

The firmware and a Wi-Fi module that answers every request once, in order and at its
own pace, with nothing lost on the way. The answers to AT+CIPSEND and its payloads are
never read, so from the second selection on a call takes one of those for its own.
-/
namespace Acknowledge

open Firmware Reactive Menu Devices Mailbox Receive Recognize Framing AtStream

/-! ## The position of `main` around its `readUart` calls -/

/-- A call at some stage in front of statements of the source. -/
structure Standing (todo : List Stmt) (st : Stage) (rest : List Stmt) : Prop where
  split : todo = st.code ++ rest
  written : ∀ s ∈ rest, s.written

/-- Between two calls, what the source says next is either a call or no part of one. -/
theorem standing_written {c c' : Config Stmt Poll} {e : Event}
    (hc : ∀ s ∈ c.todo, s.written = true) (h : step Networked.main c e = some c') :
    (∃ st rest, Standing c'.todo st rest ∧ st.check = none) ∧
      (∀ v, e ≠ .rxdata v) ∧ ∀ b, e ≠ .compare b := by
  obtain ⟨s, rest, l, hs, hl, rfl⟩ | ⟨b, -, hb, rfl⟩ := step_cases h
  · rw [hs] at hc
    obtain ⟨hhead, hrest⟩ := List.forall_mem_cons.mp hc
    have hkeep : ∀ t : Stmt, t.written = true →
        ∃ st more, Standing (t :: rest) st more ∧ st.check = none := fun t ht =>
      ⟨.returned, t :: rest, ⟨rfl, List.forall_mem_cons.mpr ⟨ht, hrest⟩⟩, rfl⟩
    have hdone : ∃ st more, Standing rest st more ∧ st.check = none :=
      ⟨.returned, rest, ⟨rfl, hrest⟩, rfl⟩
    obtain ⟨a, rfl, rfl, rfl⟩ | ⟨v, rfl, rfl, rfl⟩ | ⟨v, rfl, rfl, rfl⟩ | ⟨v, rfl, rfl, rfl⟩ |
      ⟨b, rfl, rfl, rfl⟩ | ⟨b, v, rfl, rfl, rfl⟩ := micro_cases hl
    · exact ⟨hdone, by simp, by simp⟩
    · refine ⟨?_, by simp, by simp⟩
      split
      · exact hdone
      · exact hkeep _ rfl
    · refine ⟨?_, by simp, by simp⟩
      split
      · exact ⟨.ready, rest, ⟨rfl, hrest⟩, rfl⟩
      · exact ⟨.polling, rest, ⟨rfl, hrest⟩, rfl⟩
    · cases hhead
    · cases hhead
    · refine ⟨?_, by simp, by simp⟩
      split <;> exact hkeep _ rfl
  · obtain rfl := heard_button hb
    exact ⟨⟨.returned, _, ⟨rfl, loop_written c.ctrl b⟩, rfl⟩, by simp, by simp⟩

/-- Everything an event can do to `main` and the call in front. -/
theorem standing_step {c c' : Config Stmt Poll} {st : Stage} {rest : List Stmt} {e : Event}
    (hc : Standing c.todo st rest) (h : step Networked.main c e = some c') :
    ∃ st' rest', Standing c'.todo st' rest' ∧ Checks st st' e := by
  obtain ⟨hsplit, hrest⟩ := hc
  by_cases hst : st = .returned
  · subst hst
    have hwritten : ∀ s ∈ c.todo, s.written = true := by
      rw [hsplit]
      exact hrest
    obtain ⟨⟨st', rest', hst', hnone⟩, hr, hb⟩ := standing_written hwritten h
    exact ⟨st', rest', hst', .inr (.inr ⟨hr, hb, hnone⟩)⟩
  · have hcode : st.code ≠ [] := fun hnil => hst (code_nil.mp hnil)
    obtain ⟨todo, k⟩ := c
    simp only at hsplit
    rw [hsplit, Networked.main, step_front hcode, callStep_code, Option.map_map] at h
    obtain ⟨st', hnext, rfl⟩ := Option.map_eq_some_iff.mp h
    exact ⟨st', rest, ⟨rfl, hrest⟩, next_checks hnext⟩

/-- An answer byte with the number of the request it answers. -/
abbrev Answer : Type := Nat × Byte

abbrev MainLine : Type := Line (Config Stmt Poll) Answer

def mainLine : MainLine → Move Event Answer → Option MainLine :=
  lineStep (serial Prod.snd) (step Networked.main)

/-- The requests whose 'K' is among the given answer bytes. -/
def letterKs (l : List Answer) : List Nat := (l.filter (·.2 == letterK)).map Prod.fst

theorem letterKs_append (l m : List Answer) : letterKs (l ++ m) = letterKs l ++ letterKs m := by
  simp [letterKs]

theorem letterKs_response (n : Nat) (l : List Byte) :
    letterKs (l.map (n, ·)) = List.replicate (l.count letterK) n := by
  induction l with
  | nil => rfl
  | cons b l ih =>
    by_cases hb : b = letterK
    · simpa [letterKs, hb, List.replicate_succ] using ih
    · simpa [letterKs, hb] using ih

/-- The completed `readUart` calls. -/
def returns (es : List Event) : Nat := es.count (.compare letterK)

/-- Each completed call has read one 'K'; a call that has read a byte has read it last. -/
def Reading (es : List Event) (s : MainLine) : Prop :=
  ∃ st rest, Standing s.program.todo st rest ∧
    (∀ b, st.check = some b → s.read.getLast?.map Prod.snd = some b) ∧
    (letterKs s.read).length = returns es + if st.check = some letterK then 1 else 0

theorem returns_snoc (es : List Event) (e : Event) :
    returns (es ++ [e]) = returns es + if e = .compare letterK then 1 else 0 := by
  simp [returns, List.count_singleton]

theorem letterKs_snoc (l : List Answer) (i : Nat) (b : Byte) :
    (letterKs (l ++ [(i, b)])).length = (letterKs l).length + if b = letterK then 1 else 0 := by
  rw [letterKs_append, List.length_append]
  by_cases hb : b = letterK <;> simp [letterKs, hb]

theorem reading_step {es : List Event} {s t : MainLine} {m : Move Event Answer}
    (hs : Reading es s) (h : mainLine s m = some t) : Reading (es ++ own [m]) t := by
  cases m with
  | arrive a =>
    cases h
    rw [own_cons_arrive, own_nil, List.append_nil]
    exact hs
  | own e =>
    obtain ⟨st, rest, hst, hlast, hcount⟩ := hs
    obtain ⟨hpermit, c, hc, rfl⟩ := lineStep_own h
    obtain ⟨st', rest', hst', hchecks⟩ := standing_step hst hc
    rw [own_cons_own, own_nil]
    obtain ⟨v, rfl, hnone, hsome⟩ | ⟨b, rfl, hsome, hnone⟩ | ⟨hr, hb, hsame⟩ := hchecks
    · obtain ⟨i, b, hheld, rfl⟩ : ∃ i b, s.held = some (i, b) ∧ b = low v := by
        simpa using hpermit
      have htake : take (serial Prod.snd) s (.rxdata v) c = ⟨c, none, s.read ++ [(i, low v)]⟩ := by
        simp [take, hheld]
      rw [htake]
      refine ⟨st', rest', hst', ?_, ?_⟩
      · intro b hb
        rw [hsome] at hb
        simpa using hb
      · rw [hnone] at hcount
        rw [letterKs_snoc, returns_snoc, hsome, hcount]
        simp
    · have htake : take (serial Prod.snd) s (.compare b) c = ⟨c, s.held, s.read⟩ := rfl
      rw [htake]
      refine ⟨st', rest', hst', by simp [hnone], ?_⟩
      rw [returns_snoc, hnone, hcount, hsome]
      simp
    · have htake : take (serial Prod.snd) s e c = ⟨c, s.held, s.read⟩ := by
        cases e <;> first | rfl | exact absurd rfl (hr _)
      rw [htake]
      refine ⟨st', rest', hst', by rw [hsame]; exact hlast, ?_⟩
      rw [returns_snoc, if_neg (hb letterK), Nat.add_zero, hsame]
      exact hcount

theorem run_reading {t : MainLine} {ms : List (Move Event Answer)}
    (h : run mainLine ⟨Networked.boot, none, []⟩ ms = some t) : Reading (own ms) t := by
  have hstart : Reading (own ([] : List (Move Event Answer))) ⟨Networked.boot, none, []⟩ :=
    ⟨.returned, Networked.start, ⟨rfl, start_written⟩, by simp [Stage.check], rfl⟩
  refine run_history (P := fun ms t => Reading (own ms) t) ?_ hstart h
  intro ms s m t hs hm
  rw [own_append]
  exact reading_step hs hm

/-! ## The Wi-Fi module -/

/-- A command line or a completed payload; the empty line after a payload asks for nothing. -/
def isRequest : Frame Byte → Bool
  | .line l => l != []
  | .payload _ => true

/-- The requests in the bytes that the Wi-Fi module has received. -/
def requests (received : List Byte) : List (Frame Byte) :=
  (scan atFormat (.line []) received).1.filter isRequest

structure System where
  line : MainLine
  received : List Byte
  answered : Nat
  outbox : List Answer

inductive Act where
  | firmware (e : Event)
  | answer (response : List Byte)
  | deliver
  deriving DecidableEq, Repr

/-- The firmware steps, the next request is answered with one 'K', or one answer byte
arrives while the receiver is free. -/
def sysStep (s : System) : Act → Option System
  | .firmware e => (mainLine s.line (.own e)).map fun l =>
      { s with line := l, received := s.received ++ transmitted.emit e }
  | .answer response =>
    if s.answered < (requests s.received).length ∧ response.count letterK = 1 then
      some { s with
        answered := s.answered + 1
        outbox := s.outbox ++ response.map (s.answered, ·) }
    else none
  | .deliver =>
    match s.line.held, s.outbox with
    | none, a :: rest =>
      (mainLine s.line (.arrive a)).map fun l => { s with line := l, outbox := rest }
    | _, _ => none

/-- Power-up, with nothing sent and nothing on its way. -/
def powerOn : System := ⟨⟨Networked.boot, none, []⟩, [], 0, []⟩

/-- The firmware events among the acts. -/
def events (as : List Act) : List Event :=
  as.filterMap fun
    | .firmware e => some e
    | _ => none

/-- The answer bytes that exist, from the first one read to the last one on its way. -/
def stream (s : System) : List Answer := s.line.read ++ s.line.held.toList ++ s.outbox

/-- The answers come in the order of the requests, one 'K' each. -/
theorem step_stream {s t : System} {a : Act} (hs : letterKs (stream s) = List.range s.answered)
    (h : sysStep s a = some t) : letterKs (stream t) = List.range t.answered := by
  cases a with
  | firmware e =>
    obtain ⟨l, hl, rfl⟩ := Option.map_eq_some_iff.mp h
    obtain ⟨-, c, -, rfl⟩ := lineStep_own hl
    have hsame : ∀ c, (take (serial Prod.snd) s.line e c).read ++
        (take (serial Prod.snd) s.line e c).held.toList = s.line.read ++ s.line.held.toList := by
      intro c
      unfold take
      split <;> simp
    simp only [stream, hsame]
    exact hs
  | answer response =>
    simp only [sysStep, Option.ite_none_right_eq_some, Option.some.injEq] at h
    obtain ⟨⟨-, hone⟩, rfl⟩ := h
    have hstream : letterKs (stream s ++ response.map (s.answered, ·)) =
        List.range (s.answered + 1) := by
      rw [letterKs_append, hs, letterKs_response, hone, List.range_succ]
      rfl
    simpa [stream, List.append_assoc] using hstream
  | deliver =>
    simp only [sysStep] at h
    split at h
    · rename_i a rest hheld hout
      cases h
      simpa [stream, hheld, hout] using hs
    · cases h

/-- What holds at every moment: the firmware is on one of its runs, the module has received
what was transmitted, and the answers are in order. -/
def Consistent (as : List Act) (s : System) : Prop :=
  (∃ ms, run mainLine ⟨Networked.boot, none, []⟩ ms = some s.line ∧ own ms = events as) ∧
    s.received = txBytes (events as) ∧ letterKs (stream s) = List.range s.answered

theorem events_append (as bs : List Act) : events (as ++ bs) = events as ++ events bs :=
  List.filterMap_append

theorem consistent_step {as : List Act} {s t : System} {a : Act} (hs : Consistent as s)
    (h : sysStep s a = some t) : Consistent (as ++ [a]) t := by
  obtain ⟨⟨ms, hms, hown⟩, hreceived, hstream⟩ := hs
  have hnext := step_stream hstream h
  cases a with
  | firmware e =>
    obtain ⟨l, hl, rfl⟩ := Option.map_eq_some_iff.mp h
    have hevents : own (ms ++ [.own e]) = events (as ++ [.firmware e]) := by
      rw [own_append, hown, events_append]
      rfl
    refine ⟨⟨ms ++ [.own e], run_snoc hms hl, hevents⟩, ?_, hnext⟩
    rw [events_append, ← emitted_transmitted, List.flatMap_append, emitted_transmitted, ← hreceived]
    exact congrArg _ (List.append_nil _).symm
  | answer response =>
    simp only [sysStep, Option.ite_none_right_eq_some, Option.some.injEq] at h
    obtain ⟨-, rfl⟩ := h
    have hsame : events (as ++ [.answer response]) = events as := by simp [events]
    exact ⟨⟨ms, hms, hsame ▸ hown⟩, hsame ▸ hreceived, hnext⟩
  | deliver =>
    have hsame : events (as ++ [.deliver]) = events as := by simp [events]
    simp only [sysStep] at h
    split at h
    · obtain ⟨l, hl, rfl⟩ := Option.map_eq_some_iff.mp h
      refine ⟨⟨ms ++ [.arrive _], run_snoc hms hl, ?_⟩, hsame ▸ hreceived, hnext⟩
      rw [own_append, hown, hsame]
      exact List.append_nil _
    · cases h

theorem run_consistent {as : List Act} {s : System} (h : run sysStep powerOn as = some s) :
    Consistent as s := by
  have hstart : Consistent [] powerOn := ⟨⟨[], rfl, rfl⟩, rfl, rfl⟩
  exact run_history (P := Consistent) (fun _ _ _ _ => consistent_step) hstart h

/-! ## What has been requested when a call returns -/

/-- The transmitted bytes and, between them, the ends of the `readUart` calls. -/
def signalled : Emission Networked.main (Option Byte) :=
  emission Networked.loop (fun a => (sent a).map some) (fun _ => []) [none] fun _ => rfl

def signals (es : List Event) : List (Option Byte) := es.flatMap signalled.emit

theorem signals_bytes (es : List Event) : (signals es).filterMap id = txBytes es := by
  rw [← emitted_transmitted, signals]
  induction es with
  | nil => rfl
  | cons e es ih =>
    have hone : (signalled.emit e).filterMap id = transmitted.emit e := by
      cases e with
      | act a => simp [signalled, transmitted, emission, emitted]
      | compare b =>
        simp only [signalled, transmitted, emission, emitted]
        split <;> rfl
      | _ => rfl
    rw [List.flatMap_cons, List.flatMap_cons, List.filterMap_append, hone, ih]

theorem signals_returns (es : List Event) : (signals es).count none = returns es := by
  rw [signals, returns]
  induction es with
  | nil => rfl
  | cons e es ih =>
    have hone : (signalled.emit e).count none = if e = .compare letterK then 1 else 0 := by
      cases e with
      | act a => simp [signalled, emission, emitted, List.count_eq_zero]
      | compare b =>
        by_cases hb : b = letterK <;> simp [signalled, emission, emitted, hb]
      | _ => rfl
    rw [List.flatMap_cons, List.count_append, hone, ih, List.count_cons]
    by_cases he : e = .compare letterK
    · simp only [he, if_true, beq_self_eq_true]
      omega
    · simp [he]

/-- The AT+CIPSTART line, which a selection sends before its call. -/
def opening : Item Byte := command "AT+CIPSTART=\"TCP\",\"192.168.43.137\",1883"

/-- Without a `readUart` call only bytes are signalled. -/
theorem signals_wire {l : List Stmt} (h : ∀ s ∈ l, onBoard s = true ∨ onLink s = true) :
    l.flatMap signalled.owed = (l.flatMap transmitted.owed).map some := by
  rw [List.map_flatMap]
  apply List.flatMap_congr
  intro s hs
  cases s with
  | act a => rfl
  | pollTrdy => rfl
  | jtagWrite c => rfl
  | _ => obtain hboard | hlink := h _ hs <;> contradiction

/-- Only a selection calls `readUart`, and it does so once, behind the opening line. -/
theorem script_signals (g : Gesture) (o : Fin 5) :
    (networkedScript g o.val).flatMap signalled.owed =
      if g = .select then (opening.wire atFormat).map some ++
        none :: ((episodeItems o).tail.flatMap (Item.wire atFormat)).map some else [] := by
  by_cases hg : g = .select
  · have hopen : ∀ s ∈ [usleep 100000] ++
        Networked.writenUart Networked.comandoAT3 (strlen Networked.comandoAT3),
        onLink s = true := List.forall_mem_append.mpr ⟨by simp, writenUart_onLink _ _⟩
    have htraffic : ∀ s ∈ [usleep 1000000] ++ Networked.connectMQTT ++
        Networked.onMessageSelected o.val ++ altPrintf "Message sent",
        onBoard s = true ∨ onLink s = true := by
      simp only [List.forall_mem_append, and_assoc]
      exact ⟨by simp, fun s hs => .inr (connectMQTT_onLink s hs), onMessageSelected_devices o.val,
        fun s hs => .inr (altPrintf_onLink _ s hs)⟩
    have hread : Networked.readUart.flatMap signalled.owed = [none] := rfl
    have hscript : networkedScript .select o.val = ([usleep 100000] ++
        Networked.writenUart Networked.comandoAT3 (strlen Networked.comandoAT3)) ++
        (Networked.readUart ++ ([usleep 1000000] ++ Networked.connectMQTT ++
        Networked.onMessageSelected o.val ++ altPrintf "Message sent")) := by
      simp only [networkedScript, List.append_assoc]
    have hfront := (signals_wire fun s hs => .inr (hopen s hs)).trans
      (congrArg (List.map some) opening_wire)
    have hback := (signals_wire htraffic).trans (congrArg (List.map some) (traffic_wire o))
    rw [if_pos hg, hg, hscript, List.flatMap_append, hfront, List.flatMap_append, hread, hback]
    rfl
  · rw [if_neg hg, signals_wire fun s hs => .inl (script_onBoard hg _ s hs),
      board_wire (script_onBoard hg _)]
    rfl

def isLine : Frame Byte → Bool
  | .line _ => true
  | .payload _ => false

theorem requests_items {items : List (Item Byte)} (hok : ∀ i ∈ items, i.Ok atFormat) :
    requests (items.flatMap (Item.wire atFormat)) =
      (items.flatMap Item.frames).filter isRequest := by
  rw [requests, scan_items atFormat _ hok]

theorem command_request {i : Item Byte} (htext : i.text ≠ []) (hnone : i.payload = none) :
    i.frames.filter isRequest = [.line i.text] := by
  have hline : isRequest (.line i.text) = true := bne_iff_ne.mpr htext
  rw [Item.frames, hnone]
  exact List.filter_cons_of_pos hline

/-- A command line at the end is the last request and adds one to the others. -/
theorem requests_command {items : List (Item Byte)} {i : Item Byte} (htext : i.text ≠ [])
    (hnone : i.payload = none) (hok : ∀ j ∈ items ++ [i], j.Ok atFormat) :
    (requests ((items ++ [i]).flatMap (Item.wire atFormat))).getLast?.any isLine = true ∧
      (requests ((items ++ [i]).flatMap (Item.wire atFormat))).length =
        ((items.flatMap Item.frames).filter isRequest).length + 1 := by
  rw [requests_items hok, List.flatMap_append, List.filter_append, List.flatMap_singleton,
    command_request htext hnone]
  constructor
  · simp [isLine]
  · simp

theorem filter_flatMap_length {α β : Type} {f : α → List β} {p : β → Bool} {n : Nat} {l : List α}
    (h : ∀ a ∈ l, ((f a).filter p).length = n) :
    ((l.flatMap f).filter p).length = n * l.length := by
  induction l with
  | nil => rfl
  | cons a l ih =>
    have hfirst := h a (by simp)
    have hrest := ih fun b hb => h b (by simp [hb])
    rw [List.flatMap_cons, List.filter_append, List.length_append, hfirst, hrest, List.length_cons,
      Nat.mul_succ]
    omega

/-- Command lines with a `readUart` call behind each. -/
def handshakes (items : List (Item Byte)) : List (Option Byte) :=
  items.flatMap fun i => (i.wire atFormat).map some ++ [none]

theorem handshakes_bytes (items : List (Item Byte)) :
    (handshakes items).filterMap id = items.flatMap (Item.wire atFormat) := by
  rw [handshakes, List.filterMap_flatMap]
  simp

theorem handshakes_count (items : List (Item Byte)) :
    (handshakes items).count none = items.length := by
  induction items with
  | nil => rfl
  | cons i items ih =>
    have hone : ((i.wire atFormat).map some ++ [none]).count none = 1 := by
      simp [List.count_eq_zero]
    rw [handshakes, List.flatMap_cons, List.count_append, hone, ← handshakes, ih, List.length_cons]
    omega

/-- What comes before a call are the handshakes before it and its own command line. -/
theorem handshakes_split {items : List (Item Byte)} {p q : List (Option Byte)}
    (h : handshakes items = p ++ none :: q) :
    ∃ before i after, items = before ++ i :: after ∧
      p = handshakes before ++ (i.wire atFormat).map some := by
  induction items generalizing p with
  | nil => simp [handshakes] at h
  | cons i items ih =>
    have hsome : none ∉ (i.wire atFormat).map some := by simp
    have hcons : handshakes (i :: items) =
        (i.wire atFormat).map some ++ none :: handshakes items := by
      simp [handshakes]
    rw [hcons] at h
    obtain ⟨m, hp, hrest⟩ | ⟨m, hp, hrest⟩ := List.append_eq_append_iff.mp h
    · cases m with
      | nil => exact ⟨[], i, items, rfl, by simpa [handshakes] using hp⟩
      | cons b m =>
        obtain ⟨rfl, htail⟩ := List.cons.inj hrest
        obtain ⟨before, j, after, rfl, hm⟩ := ih htail
        refine ⟨i :: before, j, after, rfl, ?_⟩
        rw [hp, hm]
        simp [handshakes]
    · cases m with
      | nil => exact ⟨[], i, items, rfl, by simpa [handshakes] using hp.symm⟩
      | cons b m =>
        have hnone : none = b := (List.cons.inj hrest).1
        exact absurd (by simp [hp, ← hnone]) hsome

theorem start_handshakes : Networked.start.flatMap signalled.owed = handshakes startItems := by
  have hcommand : ∀ (text : String) {v : List Byte}, v = cString text → 0 ∉ ascii text →
      (Networked.writenUart v (strlen v)).flatMap signalled.owed =
        ((command text).wire atFormat).map some := by
    intro text v hv htext
    rw [signals_wire fun s hs => .inr (writenUart_onLink _ _ s hs), command_wire text hv htext]
  have hattention := hcommand "AT" (v := Networked.comandoAT0) rfl (by decide)
  have hmode := hcommand "AT+CWMODE=1" (v := Networked.comandoAT1) rfl (by decide)
  have hjoin := hcommand "AT+CWJAP=\"GT-I9192\",\"[samsung]\"" (v := Networked.comandoAT2) rfl
    (by decide)
  have hsetup := signals_wire fun s hs => .inl (initializeLcd_onBoard s hs)
  have hmessage := signals_wire fun s hs => .inl (onMessage_onBoard 0 s hs)
  rw [board_wire initializeLcd_onBoard] at hsetup
  rw [board_wire (onMessage_onBoard 0)] at hmessage
  simp only [Networked.start, List.flatMap_append, hattention, hmode, hjoin, hsetup, hmessage]
  simp [handshakes, startItems, signalled, emission, sent, Networked.readUart]

/-- In the start-up every call stands right behind a line, with one more request than calls. -/
theorem start_signals {p q : List (Option Byte)}
    (h : Networked.start.flatMap signalled.owed = p ++ none :: q) :
    (requests (p.filterMap id)).getLast?.any isLine = true ∧
      (requests (p.filterMap id)).length = p.count none + 1 := by
  rw [start_handshakes] at h
  obtain ⟨before, i, after, hitems, rfl⟩ := handshakes_split h
  have hline : ∀ j ∈ startItems, j.text ≠ [] ∧ j.payload = none := by decide
  have hmem : ∀ j ∈ before ++ [i], j ∈ startItems := by
    intro j hj
    rw [hitems, List.append_cons]
    exact List.mem_append_left after hj
  have hone : ∀ j ∈ before, (j.frames.filter isRequest).length = 1 := by
    intro j hj
    obtain ⟨htext, hnone⟩ := hline j (hmem j (List.mem_append_left _ hj))
    rw [command_request htext hnone, List.length_singleton]
  obtain ⟨htext, hnone⟩ := hline i (hmem i (by simp))
  have hcommand := requests_command htext hnone fun j hj => startItems_ok j (hmem j hj)
  rw [filter_flatMap_length hone, Nat.one_mul] at hcommand
  have hbytes : (handshakes before ++ (i.wire atFormat).map some).filterMap id =
      (before ++ [i]).flatMap (Item.wire atFormat) := by
    rw [List.filterMap_append, handshakes_bytes, List.flatMap_append]
    simp
  have hcount : (handshakes before ++ (i.wire atFormat).map some).count none = before.length := by
    rw [List.count_append, handshakes_count]
    simp [List.count_eq_zero]
  rw [hbytes, hcount]
  exact hcommand

/-- Three requests of the start-up, seven of each earlier selection and the opening line. -/
theorem opening_count (os : List (Fin 5)) :
    (requests ((startItems ++ os.flatMap episodeItems ++ [opening]).flatMap
      (Item.wire atFormat))).getLast?.any isLine = true ∧
    (requests ((startItems ++ os.flatMap episodeItems ++ [opening]).flatMap
      (Item.wire atFormat))).length = 4 + 7 * os.length := by
  have hok : ∀ i ∈ startItems ++ os.flatMap episodeItems ++ [opening], i.Ok atFormat := by
    intro i hi
    obtain h | h := List.mem_append.mp hi
    · exact items_ok os i h
    · rw [List.mem_singleton.mp h]
      decide
  have hepisode : ∀ o, (((episodeItems o).flatMap Item.frames).filter isRequest).length = 7 := by
    decide
  have hstart : ((startItems.flatMap Item.frames).filter isRequest).length = 3 := by
    decide
  have hepisodes := @filter_flatMap_length _ _ (fun o => (episodeItems o).flatMap Item.frames)
    isRequest 7 os fun o _ => hepisode o
  obtain ⟨hlast, hlength⟩ := requests_command (i := opening) (by decide) rfl hok
  refine ⟨hlast, hlength.trans ?_⟩
  rw [List.flatMap_append, List.filter_append, List.length_append, hstart, List.flatMap_assoc,
    hepisodes]
  omega

/-- At a poll three calls of the start-up and one of each selection have returned. -/
theorem idle_returns {es : List Event} {c : Config Stmt Poll}
    (h : run (step Networked.main) Networked.boot es = some c) (hpoll : c.todo = []) :
    returns es = 3 + (episodes first (buttons es)).length := by
  have hrun := signalled.run_emit_idle h hpoll
  have hasked : ∀ b : Word, signalled.asked b = [] := fun _ => rfl
  have hout := outputs_poll networked_loop signalled first (buttons es)
  simp only [hasked, List.nil_append, script_signals, replies_select] at hout
  have hstart : (Networked.boot.todo.flatMap signalled.owed).count none = 3 :=
    (congrArg (List.count none) start_handshakes).trans (handshakes_count startItems)
  have hepisodes : ∀ os : List (Fin 5), (os.flatMap fun o => (opening.wire atFormat).map some ++
      none :: ((episodeItems o).tail.flatMap (Item.wire atFormat)).map some).count none =
        os.length := by
    intro os
    induction os with
    | nil => rfl
    | cons o os ih =>
      have hsome : ∀ l : List Byte, (l.map some).count none = 0 := by
        simp [List.count_eq_zero]
      rw [List.flatMap_cons, List.count_append, ih, List.count_append, List.count_cons, hsome,
        hsome]
      simp only [beq_self_eq_true, if_true, List.length_cons]
      omega
  rw [← signals_returns, signals, hrun, List.count_append, hstart]
  exact congrArg (3 + ·) ((congrArg (List.count none) hout).trans (hepisodes _))

/-- After a button read, only a selection comes to a call, right behind its opening line. -/
theorem call_opening {m : State} {b : Word} {es : List Event} {c : Config Stmt Poll}
    {rest : List Stmt}
    (h : run (step Networked.main) ⟨networkedScript (gesture m b) (press m b).option.val,
      poll (press m b)⟩ es = some c)
    (hbuttons : buttons es = []) (hc : c.todo = .checkByte letterK :: rest) :
    gesture m b = .select ∧ txBytes es = opening.wire atFormat ∧ returns es = 0 := by
  have hnone : inputs Networked.main es = [] := hbuttons
  have howed : c.todo.flatMap signalled.owed = none :: rest.flatMap signalled.owed := by
    rw [hc]
    rfl
  have hrun := signalled.run_emit h
  rw [howed, hnone, Emission.outputs_nil, List.append_nil, script_signals] at hrun
  by_cases hg : gesture m b = .select
  · have hsome : ∀ l : List Byte, none ∉ l.map some := by simp
    rw [if_pos hg] at hrun
    obtain ⟨hfront, -⟩ := (List.append_cons_inj_of_notMem (hsome _) (hsome _)).mp hrun.symm
    refine ⟨hg, ?_, ?_⟩
    · rw [← signals_bytes, signals, ← hfront, List.filterMap_map]
      exact List.filterMap_some
    · rw [← signals_returns, signals, ← hfront]
      exact List.count_eq_zero.mpr (hsome _)
  · rw [if_neg hg] at hrun
    exact absurd hrun (by simp)

/-- What the firmware has done when a call finds its 'K': the requests are one ahead of the
calls during the start-up and the first selection, and further ahead later. -/
theorem call_requests {es : List Event} {c : Config Stmt Poll} {rest : List Stmt}
    (h : run (step Networked.main) Networked.boot es = some c)
    (hc : c.todo = .checkByte letterK :: rest) :
    (requests (txBytes es)).getLast?.any isLine = true ∧
      ((episodes first (buttons es) = [] ∧ (requests (txBytes es)).length = returns es + 1) ∨
        ∃ n, (episodes first (buttons es)).length = n + 1 ∧ returns es = 3 + n ∧
          (requests (txBytes es)).length = 4 + 7 * n) := by
  obtain hnone | ⟨es₁, e, b, es₂, rfl, he, hes₂, hfirst, hsecond⟩ := last_input h
  · have howed : c.todo.flatMap signalled.owed = none :: rest.flatMap signalled.owed := by
      rw [hc]
      rfl
    have hrun := signalled.run_emit h
    rw [howed, hnone, Emission.outputs_nil, List.append_nil] at hrun
    have hstart := start_signals hrun.symm
    have hsignals : es.flatMap signalled.emit = signals es := rfl
    rw [hsignals, signals_bytes, signals_returns] at hstart
    have hbuttons : buttons es = [] := hnone
    exact ⟨hstart.1, .inl ⟨by rw [hbuttons]; rfl, hstart.2⟩⟩
  · obtain rfl := heard_button he
    have hctrl : after Networked.main Networked.boot.ctrl (inputs Networked.main es₁) =
        poll (presses first (buttons es₁)) := after_poll networked_loop first (buttons es₁)
    rw [hctrl, networked_react] at hsecond
    obtain ⟨hg, hbytes, hreturns⟩ := call_opening hsecond hes₂ hc
    have hsplit : txBytes (es₁ ++ .button b :: es₂) = txBytes es₁ ++ txBytes es₂ := by
      simp [txBytes, accesses]
    have hadd : returns (es₁ ++ .button b :: es₂) = returns es₁ + returns es₂ := by
      simp [returns]
    have hepisodes : episodes first (buttons (es₁ ++ .button b :: es₂)) =
        episodes first (buttons es₁) ++ [(presses first (buttons es₁)).option] := by
      have hnone : buttons es₂ = [] := hes₂
      rw [buttons, List.filterMap_append, episodes_append, List.filterMap_cons, ← buttons,
        ← buttons, hnone]
      simp [heard, episodes, hg, press]
    have hwire := run_wire hfirst
    rw [List.flatMap_nil, List.append_nil] at hwire
    have hcount := opening_count (episodes first (buttons es₁))
    rw [List.flatMap_append, ← hwire, List.flatMap_singleton, ← hbytes, ← hsplit] at hcount
    refine ⟨hcount.1, .inr ⟨(episodes first (buttons es₁)).length, ?_, ?_, hcount.2⟩⟩
    · rw [hepisodes, List.length_append, List.length_singleton]
    · rw [hadd, hreturns, idle_returns hfirst rfl, Nat.add_zero]

theorem compare_head {c c' : Config Stmt Poll} {b : Byte}
    (h : step Networked.main c (.compare b) = some c') :
    ∃ rest, c.todo = .checkByte b :: rest := by
  obtain ⟨s, rest, l, hs, hl, -⟩ | ⟨v, -, hv, -⟩ := step_cases h
  · refine ⟨rest, ?_⟩
    cases s <;> simp only [Networked.main, firmware_micro, micro, reduceCtorEq,
      Option.ite_none_right_eq_some] at hl
    rw [hs, ← hl.1]
  · cases hv

/-- A comparison belongs to the call in front. -/
theorem standing_check {st : Stage} {b : Byte} {rest more : List Stmt}
    (h : Standing (.checkByte b :: more) st rest) : st.check = some b := by
  have hsplit := h.split
  cases st <;> simp only [Stage.code, List.cons_append, List.nil_append, List.cons.injEq,
    reduceCtorEq, false_and] at hsplit
  case checking c => rw [Stage.check, (Stmt.checkByte.inj hsplit.1)]
  case returned =>
    have hfirst := h.written (.checkByte b) (by rw [← hsplit]; simp)
    cases hfirst

theorem letterKs_last {l : List Answer} {i : Nat} (h : l.getLast? = some (i, letterK)) :
    letterKs l = letterKs l.dropLast ++ [i] := by
  have hone : letterKs [(i, letterK)] = [i] := by simp [letterKs]
  have hsplit : l.dropLast ++ [(i, letterK)] = l := List.dropLast_append_getLast? _ h
  rw [← hone, ← letterKs_append, hsplit]

/-- The 'K' that a call ends with is the one after those of the earlier calls. -/
theorem call_answer {as : List Act} {s t : System} (h : run sysStep powerOn as = some s)
    (hret : sysStep s (.firmware (.compare letterK)) = some t) :
    s.line.read.getLast? = some (returns (events as), letterK) ∧
      ∃ c rest, run (step Networked.main) Networked.boot (events as) = some c ∧
        c.todo = .checkByte letterK :: rest := by
  obtain ⟨⟨ms, hms, hown⟩, -, hstream⟩ := run_consistent h
  obtain ⟨l, hl, -⟩ := Option.map_eq_some_iff.mp hret
  obtain ⟨-, c, hc, -⟩ := lineStep_own hl
  obtain ⟨rest, hrest⟩ := compare_head hc
  refine ⟨?_, s.line.program, rest, hown ▸ run_own hms, hrest⟩
  obtain ⟨st, more, hstand, hlast, hcount⟩ := hown ▸ run_reading hms
  have hcheck : st.check = some letterK := standing_check (hrest ▸ hstand)
  obtain ⟨⟨i, b⟩, ha, rfl⟩ := Option.map_eq_some_iff.mp (hlast letterK hcheck)
  have hks := letterKs_last ha
  have hlen : (letterKs s.line.read.dropLast).length = returns (events as) := by
    rw [if_pos hcheck, hks, List.length_append, List.length_singleton] at hcount
    omega
  -- the answers read so far are those of the first requests
  have hnumber : (List.range s.answered)[returns (events as)]? = some i := by
    rw [← hstream, stream, List.append_assoc, letterKs_append, hks, ← hlen]
    simp
  obtain ⟨hlt, hi⟩ := List.getElem?_eq_some_iff.mp hnumber
  rw [List.getElem_range] at hi
  rw [ha, hi]

/-- With every request answered once and in order and no byte lost, the 'K' that ends a call
answers the command line sent right before it exactly while at most one selection has been made. -/
theorem answers_own_line_iff {as : List Act} {s t : System} (h : run sysStep powerOn as = some s)
    (hret : sysStep s (.firmware (.compare letterK)) = some t) :
    (requests s.received).getLast?.any isLine = true ∧
      ∃ i, s.line.read.getLast? = some (i, letterK) ∧
        (i + 1 = (requests s.received).length ↔
          (episodes first (buttons (events as))).length ≤ 1) := by
  obtain ⟨hlast, c, rest, hrun, hc⟩ := call_answer h hret
  obtain ⟨-, hreceived, -⟩ := run_consistent h
  obtain ⟨hline, hcases⟩ := call_requests hrun hc
  rw [hreceived]
  refine ⟨hline, _, hlast, ?_⟩
  obtain ⟨hnone, hlen⟩ | ⟨n, hone, hret, hlen⟩ := hcases
  · rw [hnone, hlen]
    simp
  · rw [hone, hret, hlen]
    omega

/-- At each call the module answers its oldest open request, and the answer is read at once. -/
def acts : Stmt → List Act
  | .pollRrdy => .answer (ascii "\r\nOK") ::
      (ascii "\r\nOK").flatMap fun b => .deliver :: (handle b).map Act.firmware
  | s => (serve s).map Act.firmware

/-- The first call of the start-up, up to the comparison that ends it. -/
def firstCall : List Act :=
  ((Networked.writenUart Networked.comandoAT0 (strlen Networked.comandoAT0) ++
    Networked.readUart).flatMap acts).dropLast

theorem answers_own_line_first :
    ∃ s, run sysStep powerOn firstCall = some s ∧
      ∃ i, s.line.read.getLast? = some (i, letterK) ∧ i + 1 = (requests s.received).length := by
  have hrun : ((run sysStep powerOn firstCall).bind
      (sysStep · (.firmware (.compare letterK)))).isSome = true := by decide
  obtain ⟨t, ht⟩ := Option.isSome_iff_exists.mp hrun
  obtain ⟨s, hs, hret⟩ := Option.bind_eq_some_iff.mp ht
  obtain ⟨-, i, hi, hiff⟩ := answers_own_line_iff hs hret
  exact ⟨s, hs, i, hi, hiff.mpr (by decide)⟩

/-- The call of the second selection, up to the comparison that ends it. -/
def secondSelection : List Act :=
  Networked.start.flatMap acts ++
  .firmware (.button 13#32) :: (networkedScript .select 0).flatMap acts ++
  .firmware (.button 14#32) :: (networkedScript .leave 0).flatMap acts ++
  .firmware (.button 13#32) :: (([usleep 100000] ++
    Networked.writenUart Networked.comandoAT3 (strlen Networked.comandoAT3) ++
    Networked.readUart).flatMap acts).dropLast

/-- The call after the second AT+CIPSTART ends with the answer to the first AT+CIPSEND. -/
theorem second_selection_mismatch :
    ∃ s t, run sysStep powerOn secondSelection = some s ∧
      sysStep s (.firmware (.compare letterK)) = some t ∧
      s.line.read.getLast? = some (4, letterK) ∧
      (requests s.received)[4]? = some (.line (ascii "AT+CIPSEND=20")) ∧
      (requests s.received)[10]? =
        some (.line (ascii "AT+CIPSTART=\"TCP\",\"192.168.43.137\",1883")) ∧
      (requests s.received).length = 11 := by
  have hany : (run sysStep powerOn secondSelection).any (fun s =>
      (sysStep s (.firmware (.compare letterK))).isSome = true ∧
      s.line.read.getLast? = some (4, letterK) ∧
      (requests s.received)[4]? = some (.line (ascii "AT+CIPSEND=20")) ∧
      (requests s.received)[10]? =
        some (.line (ascii "AT+CIPSTART=\"TCP\",\"192.168.43.137\",1883")) ∧
      (requests s.received).length = 11) = true := by decide +kernel
  generalize run sysStep powerOn secondSelection = r at hany
  cases r with
  | none => cases hany
  | some s =>
    rw [Option.any_some, decide_eq_true_eq] at hany
    obtain ⟨t, ht⟩ := Option.isSome_iff_exists.mp hany.1
    exact ⟨s, t, rfl, ht, hany.2⟩

end Acknowledge
