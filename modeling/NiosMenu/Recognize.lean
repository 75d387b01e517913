import NiosMenu.Receive

/-!
# Which answers end `readUart`

The call ends at the first byte 'K' of what is delivered, whatever line it stands in,
and hands no result to its caller.
-/
namespace Recognize

open Firmware Reactive Mailbox Receive

/-- Answers of the Wi-Fi module: lines with CR LF behind each. -/
def wire (lines : List (List Byte)) : List Byte := lines.flatMap (· ++ [0x0D, 0x0A])

/-- The two final result lines that report a success. -/
def Success (l : List Byte) : Prop := l = ascii "OK" ∨ l = ascii "SEND OK"

instance (l : List Byte) : Decidable (Success l) := inferInstanceAs (Decidable (_ ∨ _))

/-- What the call has read: no 'K' as long as it goes on, and one at the end afterwards. -/
structure Recognizing (s : Call) : Prop where
  going : s.program.found = false → letterK ∉ s.read
  found : s.program.found = true → ∃ r, letterK ∉ r ∧ s.read = r ++ [letterK]
  ready : s.program = .ready → s.held.isSome

theorem step_recognizing {s t : Call} {m : Move Event Byte} (hs : Recognizing s)
    (h : callLine s m = some t) : Recognizing t := by
  obtain ⟨b, -, rfl⟩ | ⟨v, b, -, hready, -, rfl⟩ | ⟨e, st, -, hquiet, hst, hnext, rfl⟩ :=
    callLine_cases h
  · exact ⟨hs.going, hs.found, fun _ => rfl⟩
  · have hnone : letterK ∉ s.read := hs.going (by rw [hready]; rfl)
    refine ⟨?_, ?_, fun hp => by cases hp⟩
    · intro hb hmem
      obtain hr | hl := List.mem_append.mp hmem
      · exact hnone hr
      · simp [Stage.found, List.mem_singleton.mp hl] at hb
    · intro hb
      have hK : b = letterK := by simpa [Stage.found] using hb
      exact ⟨s.read, hnone, by rw [hK]⟩
  · have hfound := next_found hnext hquiet
    exact ⟨fun hf => hs.going (hfound ▸ hf), fun hf => hs.found (hfound ▸ hf), hst⟩

theorem run_recognizing {held : Option Byte} {t : Call} {ms : List (Move Event Byte)}
    (h : run callLine ⟨.polling, held, []⟩ ms = some t) : Recognizing t := by
  refine run_invariant (P := Recognizing) (fun _ _ _ => step_recognizing) ?_ h
  exact ⟨fun _ => by simp, fun hf => by simp [Stage.found] at hf, fun hp => by cases hp⟩

/-- A lossless call that has returned stopped right behind the first 'K' of the text. -/
theorem returned_read {s : Call} {ms : List (Move Event Byte)} {bs : List Byte}
    (hs : Recognizing s) (hall : s.read ++ s.held.toList = arrivals ms)
    (hbytes : arrivals ms <+: bs) (hret : s.program = .returned) :
    ∃ r q, bs = r ++ letterK :: q ∧ letterK ∉ r ∧ s.read = r ++ [letterK] := by
  obtain ⟨r, hr, hread⟩ := hs.found (by rw [hret]; rfl)
  obtain ⟨q, hq⟩ := hbytes
  refine ⟨r, s.held.toList ++ q, ?_, hr, hread⟩
  rw [← hq, ← hall, hread]
  simp

/-! ## Progress -/

/-- The bus accesses that finish a byte when the console has room. -/
def finish (b : Byte) : List Event :=
  [.jtagControl 0x10000, .act (.jtagData b), .compare b]

/-- The bus accesses from the poll that sees a byte to its comparison. -/
def handle (b : Byte) : List Event := .status 0x80 :: .rxdata (promote b) :: finish b

/-- Bus accesses during which nothing arrives. -/
def alone (es : List Event) : List (Move Event Byte) := es.map .own

theorem alone_append (es fs : List Event) : alone (es ++ fs) = alone es ++ alone fs :=
  List.map_append

@[simp] theorem arrivals_alone (es : List Event) : arrivals (alone es) = [] := arrivals_own es

/-- The stage behind the comparison of a byte. -/
def behind (b : Byte) : Stage := if b = letterK then .returned else .polling

theorem run_finish (held : Option Byte) (r : List Byte) (b : Byte) :
    run callLine ⟨.printing b, held, r⟩ (alone (finish b)) = some ⟨behind b, held, r⟩ := by
  simp [alone, finish, callLine, lineStep, serial, take, Stage.next, wspace, behind]

theorem run_handle (r : List Byte) (b : Byte) :
    run callLine ⟨.polling, some b, r⟩ (alone (handle b)) =
      some ⟨behind b, none, r ++ [b]⟩ := by
  have hstart : run callLine ⟨.polling, some b, r⟩
      [.own (.status 0x80), .own (.rxdata (promote b))] = some ⟨.printing b, none, r ++ [b]⟩ := by
    simp [callLine, lineStep, serial, take, Stage.next, rrdy]
  exact run_join hstart (run_finish none (r ++ [b]) b)

/-- The call has returned, or it polls and has read everything. -/
def Settled (s : Call) : Prop := s.program = .returned ∨ s.program = .polling ∧ s.held = none

theorem settles_polling (held : Option Byte) (r : List Byte) :
    ∃ es t, run callLine ⟨.polling, held, r⟩ (alone es) = some t ∧ Settled t ∧
      t.read ++ t.held.toList = r ++ held.toList := by
  cases held with
  | none => exact ⟨[], ⟨.polling, none, r⟩, rfl, .inr ⟨rfl, rfl⟩, rfl⟩
  | some b =>
    refine ⟨handle b, ⟨behind b, none, r ++ [b]⟩, run_handle r b, ?_, by simp⟩
    by_cases hb : b = letterK
    · exact .inl (by simp [behind, hb])
    · exact .inr ⟨by simp [behind, hb], rfl⟩

theorem settles_behind (held : Option Byte) (r : List Byte) (b : Byte) :
    ∃ es t, run callLine ⟨behind b, held, r⟩ (alone es) = some t ∧ Settled t ∧
      t.read ++ t.held.toList = r ++ held.toList := by
  by_cases hb : b = letterK
  · exact ⟨[], ⟨.returned, held, r⟩, by rw [behind, if_pos hb]; rfl, .inl rfl, rfl⟩
  · rw [behind, if_neg hb]
    exact settles_polling held r

/-- A call never gets stuck: with room on the console it settles. -/
theorem settles {s : Call} (hs : s.program = .ready → s.held.isSome) :
    ∃ es t, run callLine s (alone es) = some t ∧ Settled t ∧
      t.read ++ t.held.toList = s.read ++ s.held.toList := by
  obtain ⟨st, held, r⟩ := s
  have hprefix : ∀ (es : List Event) (b : Byte), run callLine ⟨st, held, r⟩ (alone es) =
      some ⟨behind b, held, r⟩ → ∃ es t, run callLine ⟨st, held, r⟩ (alone es) = some t ∧
        Settled t ∧ t.read ++ t.held.toList = r ++ held.toList := by
    intro es b hes
    obtain ⟨fs, t, hfs, hsettled, hread⟩ := settles_behind held r b
    exact ⟨es ++ fs, t, by rw [alone_append]; exact run_join hes hfs, hsettled, hread⟩
  cases st with
  | polling => exact settles_polling held r
  | ready =>
    obtain ⟨b, rfl⟩ := Option.isSome_iff_exists.mp (hs rfl)
    obtain ⟨fs, t, hfs, hsettled, hread⟩ := settles_behind none (r ++ [b]) b
    have hstart : run callLine ⟨.ready, some b, r⟩ [.own (.rxdata (promote b))] =
        some ⟨.printing b, none, r ++ [b]⟩ := by
      simp [callLine, lineStep, serial, take, Stage.next]
    refine ⟨.rxdata (promote b) :: finish b ++ fs, t, ?_, hsettled, by simpa using hread⟩
    rw [alone_append]
    exact run_join (run_join hstart (run_finish none (r ++ [b]) b)) hfs
  | printing b => exact hprefix _ b (run_finish held r b)
  | printed b =>
    exact hprefix [.act (.jtagData b), .compare b] b
      (by simp [alone, callLine, lineStep, serial, take, Stage.next, behind])
  | checking b =>
    exact hprefix [.compare b] b
      (by simp [alone, callLine, lineStep, serial, take, Stage.next, behind])
  | returned => exact ⟨[], ⟨.returned, held, r⟩, rfl, .inl rfl, rfl⟩

/-- A polling call that is fed a text with a 'K' returns within that text. -/
theorem feed_returns (r p : List Byte) (hp : letterK ∈ p) :
    ∃ ms t, run callLine ⟨.polling, none, r⟩ ms = some t ∧ t.program = .returned ∧
      arrivals ms <+: p ∧ t.read ++ t.held.toList = r ++ arrivals ms := by
  induction p generalizing r with
  | nil => cases hp
  | cons b p ih =>
    have hone : run callLine ⟨.polling, none, r⟩ (.arrive b :: alone (handle b)) =
        some ⟨behind b, none, r ++ [b]⟩ := run_handle r b
    by_cases hb : b = letterK
    · refine ⟨.arrive b :: alone (handle b), _, hone, by simp [behind, hb], ?_, by simp⟩
      simp
    · have hrest : letterK ∈ p := by
        obtain h | h := List.mem_cons.mp hp
        · exact absurd h.symm hb
        · exact h
      obtain ⟨ms, t, hms, hret, hpre, hread⟩ := ih (r ++ [b]) hrest
      rw [behind, if_neg hb] at hone
      refine ⟨.arrive b :: alone (handle b) ++ ms, t, run_join hone hms, hret, ?_, ?_⟩
      · simpa using hpre
      · simpa using hread

/-- From every state of a lossless call, a text with a 'K' can still end it. -/
theorem can_return {s : Call} {ms : List (Move Event Byte)} {bs : List Byte}
    (hs : Recognizing s) (hall : s.read ++ s.held.toList = arrivals ms)
    (hbytes : arrivals ms <+: bs) (hK : letterK ∈ bs) :
    ∃ ms' t, run callLine s ms' = some t ∧ t.program = .returned ∧
      arrivals (ms ++ ms') <+: bs ∧ t.read ++ t.held.toList = arrivals (ms ++ ms') := by
  obtain ⟨es, u, hu, hsettled, hread⟩ := settles hs.ready
  have hinv : Recognizing u :=
    run_invariant (P := Recognizing) (fun _ _ _ => step_recognizing) hs hu
  obtain hret | ⟨hpoll, hnone⟩ := hsettled
  · refine ⟨alone es, u, hu, hret, ?_, ?_⟩
    · simpa using hbytes
    · simpa [hall] using hread
  · obtain ⟨p, rfl⟩ := hbytes
    obtain ⟨st, held, r⟩ := u
    simp only at hpoll hnone
    subst hpoll hnone
    have hr : r = arrivals ms := by simpa [hall] using hread
    have hp : letterK ∈ p := by
      obtain hm | hm := List.mem_append.mp hK
      · exact absurd (hr ▸ hm) (hinv.going rfl)
      · exact hm
    obtain ⟨ms', t, ht, hret, hpre, hfed⟩ := feed_returns r p hp
    refine ⟨alone es ++ ms', t, run_join hu ht, hret, ?_, ?_⟩
    · simpa using hpre
    · simpa [hr] using hfed

/-! ## Answers in lines -/

theorem letterK_wire (lines : List (List Byte)) :
    letterK ∈ wire lines ↔ ∃ l ∈ lines, letterK ∈ l := by
  simp only [wire, List.mem_flatMap, List.mem_append]
  constructor
  · rintro ⟨l, hl, hK | hK⟩
    · exact ⟨l, hl, hK⟩
    · exact absurd hK (by decide)
  · rintro ⟨l, hl, hK⟩
    exact ⟨l, hl, .inl hK⟩

/-- Where a text begins up to its first 'K' is determined. -/
theorem first_letterK {r r' q q' : List Byte} (hr : letterK ∉ r) (hr' : letterK ∉ r')
    (h : r ++ letterK :: q = r' ++ letterK :: q') : r = r' := by
  induction r generalizing r' with
  | nil =>
    cases r' with
    | nil => rfl
    | cons b r' =>
      have hb : letterK = b := (List.cons.inj h).1
      exact absurd hb (fun hb => hr' (by simp [← hb]))
  | cons a r ih =>
    cases r' with
    | nil =>
      have ha : a = letterK := (List.cons.inj h).1
      exact absurd ha (fun ha => hr (by simp [ha]))
    | cons b r' =>
      obtain ⟨rfl, htail⟩ := List.cons.inj h
      have hr₁ : letterK ∉ r := fun hm => hr (by simp [hm])
      have hr₂ : letterK ∉ r' := fun hm => hr' (by simp [hm])
      exact congrArg (a :: ·) (ih hr₁ hr₂ htail)

/-- The 'K' of a success line is its last character. -/
theorem success_letterK {l : List Byte} (hl : Success l) :
    ∃ r, letterK ∉ r ∧ l = r ++ [letterK] := by
  obtain rfl | rfl := hl
  · exact ⟨ascii "O", by decide, by decide⟩
  · exact ⟨ascii "SEND O", by decide, by decide⟩

/-- A beginning without a 'K' belongs to the part before the first 'K'. -/
theorem strip_front {x w r q : List Byte} (hx : letterK ∉ x)
    (h : x ++ w = r ++ letterK :: q) : ∃ r', r = x ++ r' ∧ w = r' ++ letterK :: q := by
  obtain ⟨r', hr, hw⟩ | ⟨c, hc, hq⟩ := List.append_eq_append_iff.mp h
  · exact ⟨r', hr, hw⟩
  · cases c with
    | nil => exact ⟨[], by simpa using hc.symm, by simpa using hq.symm⟩
    | cons b c =>
      have hb : letterK = b := (List.cons.inj hq).1
      exact absurd (by simp [hc, hb]) hx

/-- If only success lines contain a 'K', the text up to the first 'K' ends with the first
success line. -/
theorem first_success {lines : List (List Byte)}
    (honly : ∀ l ∈ lines, letterK ∈ l → Success l) {r q : List Byte} (hr : letterK ∉ r)
    (h : wire lines = r ++ letterK :: q) :
    ∃ before l after, lines = before ++ l :: after ∧ Success l ∧
      (∀ b ∈ before, ¬ Success b) ∧ r ++ [letterK] = wire before ++ l := by
  induction lines generalizing r with
  | nil => simp [wire] at h
  | cons l lines ih =>
    by_cases hl : letterK ∈ l
    · have hsuccess := honly l (by simp) hl
      obtain ⟨p, hp, rfl⟩ := success_letterK hsuccess
      have hline : r ++ letterK :: q = p ++ letterK :: ([0x0D, 0x0A] ++ wire lines) := by
        rw [← h]
        simp [wire]
      refine ⟨[], _, lines, rfl, hsuccess, by simp, ?_⟩
      rw [first_letterK hr hp hline]
      rfl
    · have hx : letterK ∉ l ++ [0x0D, 0x0A] := by
        intro hm
        obtain hm | hm := List.mem_append.mp hm
        · exact hl hm
        · exact absurd hm (by decide)
      obtain ⟨r', rfl, hrest⟩ := strip_front hx (show (l ++ [0x0D, 0x0A]) ++ wire lines = _ from h)
      obtain ⟨before, m, after, rfl, hm, hbefore, hread⟩ :=
        ih (fun k hk => honly k (by simp [hk])) (fun hm => hr (by simp [hm])) hrest
      refine ⟨l :: before, m, after, rfl, hm, ?_, ?_⟩
      · intro b hb hsuccess
        obtain rfl | hb := List.mem_cons.mp hb
        · obtain ⟨p, -, rfl⟩ := success_letterK hsuccess
          exact hl (by simp)
        · exact hbefore b hb hsuccess
      · rw [List.append_assoc, hread]
        simp [wire]

/-- For every text of lines that is delivered without loss, `readUart` ends at the first 'K'
of the text and not before, waits while no 'K' has been delivered, can always end if some
line contains one, and `main` goes on with the next statement exactly then. -/
theorem ends_at_first_K (lines : List (List Byte)) {ms : List (Move Event Byte)}
    {s : Line (List Stmt) Byte}
    (h : run (lineStep (serial id) callStep) ⟨Networked.readUart, none, []⟩ ms = some s)
    (hlossless : lost (serial id) ms = []) (hbytes : arrivals ms <+: wire lines) :
    (s.program = [] → ∃ r q, wire lines = r ++ letterK :: q ∧ letterK ∉ r ∧
      s.read = r ++ [letterK]) ∧
    (s.program = Networked.readUart → s.held = none → letterK ∉ arrivals ms) ∧
    ((∃ l ∈ lines, letterK ∈ l) → ∃ ms' t,
      run (lineStep (serial id) callStep) s ms' = some t ∧ t.program = [] ∧
      arrivals (ms ++ ms') <+: wire lines ∧ lost (serial id) (ms ++ ms') = []) ∧
    (∀ rest k, run (lineStep (serial id) (step Networked.main))
      ⟨⟨Networked.readUart ++ rest, k⟩, none, []⟩ ms =
        some ⟨⟨s.program ++ rest, k⟩, s.held, s.read⟩) ∧
    ((∀ l ∈ lines, letterK ∈ l → Success l) → s.program = [] → ∃ before l after,
      lines = before ++ l :: after ∧ Success l ∧ (∀ b ∈ before, ¬ Success b) ∧
      s.read = wire before ++ l) := by
  have hall := (run_lossless h).mp hlossless
  have hmain : ∀ rest k, run (lineStep (serial id) (step Networked.main))
      ⟨⟨Networked.readUart ++ rest, k⟩, none, []⟩ ms =
        some ⟨⟨s.program ++ rest, k⟩, s.held, s.read⟩ := fun rest k =>
    run_embed (fun p : List Stmt => (⟨p ++ rest, k⟩ : Config Stmt Poll)) (fun _ _ _ => step_call) h
  rw [run_readUart] at h
  obtain ⟨c, hc, rfl⟩ := Option.map_eq_some_iff.mp h
  have hinv := run_recognizing hc
  refine ⟨fun hcode => returned_read hinv hall hbytes (code_nil.mp hcode), ?_, ?_, hmain, ?_⟩
  · intro hcode hheld
    have hgoing := hinv.going (by rw [code_polling.mp hcode]; rfl)
    rw [← hall, show c.held = none from hheld]
    simpa using hgoing
  · rintro ⟨l, hl, hK⟩
    obtain ⟨ms', t, ht, hret, hpre, hread⟩ :=
      can_return hinv hall hbytes ((letterK_wire lines).mpr ⟨l, hl, hK⟩)
    have hrun : run (lineStep (serial id) callStep) ⟨c.program.code, c.held, c.read⟩ ms' =
        some ⟨t.program.code, t.held, t.read⟩ :=
      (run_map Stage.code callStep_code c ms').trans (congrArg (Option.map _) ht)
    refine ⟨ms', _, hrun, by rw [hret]; rfl, hpre, ?_⟩
    exact (run_lossless (run_join hc ht)).mpr hread
  · intro honly hcode
    obtain ⟨r, q, hwire, hr, hread⟩ := returned_read hinv hall hbytes (code_nil.mp hcode)
    obtain ⟨before, l, after, hlines, hl, hbefore, htext⟩ := first_success honly hr hwire
    exact ⟨before, l, after, hlines, hl, hbefore, hread.trans htext⟩

/-- Every byte is handled before the next one arrives. -/
def slowly (bs : List Byte) : List (Move Event Byte) :=
  bs.flatMap fun b => .arrive b :: alone (handle b)

theorem ends_at_first_K_ok :
    ∃ r q, wire [ascii "OK"] = r ++ letterK :: q ∧ letterK ∉ r ∧ ascii "OK" = r ++ [letterK] :=
  (@ends_at_first_K [ascii "OK"] (slowly (ascii "OK")) ⟨[], none, ascii "OK"⟩ (by decide)
    (by decide) (by decide)).1 rfl

/-- The final result line "ERROR", delivered without loss, does not end the call; no
delivery of it does. -/
theorem error_line_waits :
    run (lineStep (serial id) callStep) ⟨Networked.readUart, none, []⟩
      (slowly (wire [ascii "ERROR"])) = some ⟨Networked.readUart, none, wire [ascii "ERROR"]⟩ ∧
    arrivals (slowly (wire [ascii "ERROR"])) = wire [ascii "ERROR"] ∧
    lost (serial id) (slowly (wire [ascii "ERROR"])) = [] ∧
    ∀ ms s, run (lineStep (serial id) callStep) ⟨Networked.readUart, none, []⟩ ms = some s →
      lost (serial id) ms = [] → arrivals ms <+: wire [ascii "ERROR"] → s.program ≠ [] := by
  refine ⟨by decide, by decide, by decide, ?_⟩
  intro ms s h hlossless hbytes hret
  have hall := (run_lossless h).mp hlossless
  rw [run_readUart] at h
  obtain ⟨c, hc, rfl⟩ := Option.map_eq_some_iff.mp h
  obtain ⟨r, q, hwire, -⟩ := returned_read (run_recognizing hc) hall hbytes (code_nil.mp hret)
  have hnone : letterK ∉ wire [ascii "ERROR"] := by decide
  exact hnone (by simp [hwire])

end Recognize
