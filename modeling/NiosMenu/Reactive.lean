import Mathlib.Data.List.Basic

/-!
# Reactive machines: finite scripts between inputs

A partial labelled step is followed along a finite list of labels. A reactive
machine works off a list of statements, one label at a time, and asks for its
next input exactly when the list is empty. The laws below say what a whole run
emits, where it is when it asks, and that it asks again whenever its waits end.
-/
namespace Reactive

/-- Follow a finite list of labels; none means that some label was not enabled. -/
def run (step : σ → ε → Option σ) : σ → List ε → Option σ
  | s, [] => some s
  | s, e :: es => (step s e).bind fun s' => run step s' es

@[simp] theorem run_nil (step : σ → ε → Option σ) (s : σ) : run step s [] = some s := rfl
@[simp] theorem run_cons (step : σ → ε → Option σ) (s : σ) (e : ε) (es : List ε) :
    run step s (e :: es) = (step s e).bind fun s' => run step s' es := rfl

theorem run_append (step : σ → ε → Option σ) (s : σ) (es fs : List ε) :
    run step s (es ++ fs) = (run step s es).bind fun m => run step m fs := by
  induction es generalizing s with
  | nil => rfl
  | cons e es ih =>
    simp only [List.cons_append, run_cons]
    cases step s e with
    | none => rfl
    | some s' => exact ih s'

/-- A run along a concatenation has an intermediate state. -/
theorem run_split {step : σ → ε → Option σ} {s t : σ} {es fs : List ε}
    (h : run step s (es ++ fs) = some t) :
    ∃ m, run step s es = some m ∧ run step m fs = some t := by
  rw [run_append] at h
  exact Option.bind_eq_some_iff.mp h

theorem run_join {step : σ → ε → Option σ} {s m t : σ} {es fs : List ε}
    (h₁ : run step s es = some m) (h₂ : run step m fs = some t) :
    run step s (es ++ fs) = some t := by
  rw [run_append, h₁]
  exact h₂

theorem run_snoc {step : σ → ε → Option σ} {s m t : σ} {es : List ε} {e : ε}
    (h₁ : run step s es = some m) (h₂ : step m e = some t) :
    run step s (es ++ [e]) = some t := by
  apply run_join h₁
  simp [h₂]

/-- What one step preserves, every run preserves. -/
theorem run_invariant {step : σ → ε → Option σ} {P : σ → Prop}
    (hstep : ∀ s e s', P s → step s e = some s' → P s')
    {s t : σ} {es : List ε} (hs : P s) (h : run step s es = some t) : P t := by
  induction es generalizing s with
  | nil =>
    simp only [run_nil, Option.some.injEq] at h
    exact h ▸ hs
  | cons e es ih =>
    obtain ⟨m, hm, ht⟩ := Option.bind_eq_some_iff.mp h
    exact ih (hstep s e m hs hm) ht

/-- The same with a property that also speaks of the labels so far. -/
theorem run_history {step : σ → ε → Option σ} {P : List ε → σ → Prop}
    (hstep : ∀ es s e s', P es s → step s e = some s' → P (es ++ [e]) s')
    {pre es : List ε} {s t : σ} (hs : P pre s) (h : run step s es = some t) : P (pre ++ es) t := by
  induction es generalizing pre s with
  | nil =>
    simp only [run_nil, Option.some.injEq] at h
    rw [List.append_nil]
    exact h ▸ hs
  | cons e es ih =>
    obtain ⟨m, hm, ht⟩ := Option.bind_eq_some_iff.mp h
    have hnext := ih (hstep pre s e m hs hm) ht
    rwa [List.append_assoc, List.singleton_append] at hnext

/-- A property of every state that a run passes through. -/
def along (step : σ → ε → Option σ) (Q : σ → Bool) : σ → List ε → Bool
  | s, [] => Q s
  | s, e :: es => Q s && (step s e).any fun s' => along step Q s' es

theorem along_take {step : σ → ε → Option σ} {Q : σ → Bool} {s t : σ} {es : List ε} {n : Nat}
    (h : along step Q s es = true) (hr : run step s (es.take n) = some t) : Q t = true := by
  induction es generalizing s n with
  | nil =>
    simp only [List.take_nil, run_nil, Option.some.injEq] at hr
    exact hr ▸ h
  | cons e es ih =>
    simp only [along, Bool.and_eq_true] at h
    cases n with
    | zero =>
      simp only [List.take_zero, run_nil, Option.some.injEq] at hr
      exact hr ▸ h.1
    | succ n =>
      rw [List.take_succ_cons] at hr
      obtain ⟨m, hm, ht⟩ := Option.bind_eq_some_iff.mp hr
      rw [hm, Option.any_some] at h
      exact ih h.2 ht

/-- A run projects along a map that turns each step into no step or one step. -/
theorem run_lift {stepA : σ → ε → Option σ} {stepB : τ → δ → Option τ} {f : σ → τ}
    {g : ε → Option δ}
    (h : ∀ s e s', stepA s e = some s' →
      match g e with
      | none => f s' = f s
      | some d => stepB (f s) d = some (f s'))
    {s t : σ} {es : List ε} (hr : run stepA s es = some t) :
    run stepB (f s) (es.filterMap g) = some (f t) := by
  induction es generalizing s with
  | nil =>
    simp only [run_nil, Option.some.injEq] at hr
    simp [hr]
  | cons e es ih =>
    obtain ⟨m, hm, ht⟩ := Option.bind_eq_some_iff.mp hr
    have he := h s e m hm
    cases hg : g e with
    | none =>
      simp only [hg] at he
      rw [List.filterMap_cons_none hg, ← he]
      exact ih ht
    | some d =>
      simp only [hg] at he
      rw [List.filterMap_cons_some hg, run_cons, he]
      exact ih ht

/-- `micro` executes the head statement and says what is left of it; `heard`
recognizes an input, which is taken only between scripts and never by a statement. -/
structure Machine (σ ε κ ι : Type) where
  micro : σ → ε → Option (List σ)
  heard : ε → Option ι
  react : κ → ι → List σ × κ
  heard_free : ∀ s e i, heard e = some i → micro s e = none

structure Config (σ κ : Type) where
  todo : List σ
  ctrl : κ
  deriving DecidableEq, Repr

variable {σ ε κ ι ω : Type}

def step (M : Machine σ ε κ ι) (c : Config σ κ) (e : ε) : Option (Config σ κ) :=
  match c.todo with
  | [] => (M.heard e).map fun i => ⟨(M.react c.ctrl i).1, (M.react c.ctrl i).2⟩
  | s :: rest => (M.micro s e).map fun l => ⟨l ++ rest, c.ctrl⟩

@[simp] theorem step_nil (M : Machine σ ε κ ι) (k : κ) (e : ε) :
    step M ⟨[], k⟩ e = (M.heard e).map fun i => ⟨(M.react k i).1, (M.react k i).2⟩ := rfl
@[simp] theorem step_cons (M : Machine σ ε κ ι) (s : σ) (rest : List σ) (k : κ) (e : ε) :
    step M ⟨s :: rest, k⟩ e = (M.micro s e).map fun l => ⟨l ++ rest, k⟩ := rfl

/-- A step works on the head statement or takes an input; there is nothing else. -/
theorem step_cases {M : Machine σ ε κ ι} {c c' : Config σ κ} {e : ε}
    (h : step M c e = some c') :
    (∃ s rest l, c.todo = s :: rest ∧ M.micro s e = some l ∧ c' = ⟨l ++ rest, c.ctrl⟩) ∨
    (∃ i, c.todo = [] ∧ M.heard e = some i ∧
      c' = ⟨(M.react c.ctrl i).1, (M.react c.ctrl i).2⟩) := by
  obtain ⟨todo, k⟩ := c
  cases todo with
  | nil =>
    rw [step_nil] at h
    obtain ⟨i, hi, hc⟩ := Option.map_eq_some_iff.mp h
    exact .inr ⟨i, rfl, hi, hc.symm⟩
  | cons s rest =>
    rw [step_cons] at h
    obtain ⟨l, hl, hc⟩ := Option.map_eq_some_iff.mp h
    exact .inl ⟨s, rest, l, rfl, hl, hc.symm⟩

/-- The inputs among the labels of a run. -/
def inputs (M : Machine σ ε κ ι) (es : List ε) : List ι := es.filterMap M.heard

@[simp] theorem inputs_nil (M : Machine σ ε κ ι) : inputs M [] = [] := rfl
@[simp] theorem inputs_append (M : Machine σ ε κ ι) (es fs : List ε) :
    inputs M (es ++ fs) = inputs M es ++ inputs M fs := List.filterMap_append
theorem inputs_cons_none {M : Machine σ ε κ ι} {e : ε} (h : M.heard e = none) (es : List ε) :
    inputs M (e :: es) = inputs M es := List.filterMap_cons_none h
theorem inputs_cons_some {M : Machine σ ε κ ι} {e : ε} {i : ι} (h : M.heard e = some i)
    (es : List ε) : inputs M (e :: es) = i :: inputs M es := List.filterMap_cons_some h

theorem micro_not_heard {M : Machine σ ε κ ι} {s : σ} {e : ε} {l : List σ}
    (h : M.micro s e = some l) : M.heard e = none := by
  cases hi : M.heard e with
  | none => rfl
  | some i => rw [M.heard_free s e i hi] at h; cases h

/-- The control point reached by a list of inputs alone. -/
def after (M : Machine σ ε κ ι) : κ → List ι → κ
  | k, [] => k
  | k, i :: is => after M (M.react k i).2 is

@[simp] theorem after_nil (M : Machine σ ε κ ι) (k : κ) : after M k [] = k := rfl
@[simp] theorem after_cons (M : Machine σ ε κ ι) (k : κ) (i : ι) (is : List ι) :
    after M k (i :: is) = after M (M.react k i).2 is := rfl

/-- An emission law: what a statement still owes is what the label emits now plus
what the remaining statements owe, so that nothing is lost inside a script. -/
structure Emission (M : Machine σ ε κ ι) (ω : Type) where
  emit : ε → List ω
  owed : σ → List ω
  asked : ι → List ω
  micro_emit : ∀ {s e l}, M.micro s e = some l → emit e ++ l.flatMap owed = owed s
  heard_emit : ∀ {e i}, M.heard e = some i → emit e = asked i

namespace Emission

variable {M : Machine σ ε κ ι} (O : Emission M ω)

/-- What the machine emits from a control point on a list of inputs. -/
def outputs : κ → List ι → List ω
  | _, [] => []
  | k, i :: is => O.asked i ++ (M.react k i).1.flatMap O.owed ++ outputs (M.react k i).2 is

@[simp] theorem outputs_nil (k : κ) : O.outputs k [] = [] := rfl
@[simp] theorem outputs_cons (k : κ) (i : ι) (is : List ι) :
    O.outputs k (i :: is) =
      O.asked i ++ (M.react k i).1.flatMap O.owed ++ O.outputs (M.react k i).2 is := rfl

/-- Every run has emitted what its script and inputs prescribe, up to what is owed. -/
theorem run_emit {c c' : Config σ κ} {es : List ε} (h : run (step M) c es = some c') :
    es.flatMap O.emit ++ c'.todo.flatMap O.owed =
      c.todo.flatMap O.owed ++ O.outputs c.ctrl (inputs M es) := by
  induction es generalizing c with
  | nil =>
    simp only [run_nil, Option.some.injEq] at h
    subst h
    simp
  | cons e es ih =>
    obtain ⟨m, hm, ht⟩ := Option.bind_eq_some_iff.mp h
    have he := ih ht
    obtain ⟨s, rest, l, hs, hl, rfl⟩ | ⟨i, hs, hi, rfl⟩ := step_cases hm
    · rw [inputs_cons_none (micro_not_heard hl), List.flatMap_cons, List.append_assoc, he, hs]
      simp only [List.flatMap_append, List.flatMap_cons, ← O.micro_emit hl, List.append_assoc]
    · rw [inputs_cons_some hi, List.flatMap_cons, List.append_assoc, he, hs]
      simp [O.heard_emit hi, List.append_assoc]

/-- At an input poll the emission is exactly the prescribed one. -/
theorem run_emit_idle {c c' : Config σ κ} {es : List ε} (h : run (step M) c es = some c')
    (hidle : c'.todo = []) :
    es.flatMap O.emit = c.todo.flatMap O.owed ++ O.outputs c.ctrl (inputs M es) := by
  simpa [hidle] using O.run_emit h

end Emission

theorem run_ctrl {M : Machine σ ε κ ι} {c c' : Config σ κ} {es : List ε}
    (h : run (step M) c es = some c') : c'.ctrl = after M c.ctrl (inputs M es) := by
  induction es generalizing c with
  | nil =>
    simp only [run_nil, Option.some.injEq] at h
    exact congrArg Config.ctrl h.symm
  | cons e es ih =>
    obtain ⟨m, hm, ht⟩ := Option.bind_eq_some_iff.mp h
    have hk := ih ht
    obtain ⟨s, rest, l, hs, hl, rfl⟩ | ⟨i, hs, hi, rfl⟩ := step_cases hm
    · rw [inputs_cons_none (micro_not_heard hl)]
      exact hk
    · rw [inputs_cons_some hi]
      exact hk

/-- A run either takes no input or splits at its last one, where the list was empty. -/
theorem last_input {M : Machine σ ε κ ι} {c c' : Config σ κ} {es : List ε}
    (h : run (step M) c es = some c') :
    inputs M es = [] ∨ ∃ es₁ e i es₂, es = es₁ ++ e :: es₂ ∧ M.heard e = some i ∧
      inputs M es₂ = [] ∧
      run (step M) c es₁ = some ⟨[], after M c.ctrl (inputs M es₁)⟩ ∧
      run (step M) ⟨(M.react (after M c.ctrl (inputs M es₁)) i).1,
        (M.react (after M c.ctrl (inputs M es₁)) i).2⟩ es₂ = some c' := by
  induction es generalizing c with
  | nil => exact .inl rfl
  | cons e es ih =>
    obtain ⟨m, hm, ht⟩ := Option.bind_eq_some_iff.mp h
    obtain hnone | ⟨es₁, f, j, es₂, rfl, hf, hes, hfirst, hlast⟩ := ih ht
    · obtain ⟨s, rest, l, hs, hl, rfl⟩ | ⟨i, hs, hi, rfl⟩ := step_cases hm
      · exact .inl (by rw [inputs_cons_none (micro_not_heard hl), hnone])
      · refine .inr ⟨[], e, i, es, rfl, hi, hnone, ?_, ht⟩
        simp only [run_nil, inputs_nil, after_nil, ← hs]
    · refine .inr ⟨e :: es₁, f, j, es₂, rfl, hf, hes, ?_⟩
      have hk : after M m.ctrl (inputs M es₁) = after M c.ctrl (inputs M (e :: es₁)) := by
        obtain ⟨s, rest, l, hs, hl, rfl⟩ | ⟨i, hs, hi, rfl⟩ := step_cases hm
        · rw [inputs_cons_none (micro_not_heard hl)]
        · rw [inputs_cons_some hi, after_cons]
      rw [← hk]
      exact ⟨by rw [run_cons, hm]; exact hfirst, hlast⟩

/-- Labels that execute one statement whatever comes after it. -/
def Serves (M : Machine σ ε κ ι) (serve : σ → List ε) (s : σ) : Prop :=
  ∀ rest k, run (step M) ⟨s :: rest, k⟩ (serve s) = some ⟨rest, k⟩

/-- A cooperative environment completes every script of served statements. -/
theorem run_serve {M : Machine σ ε κ ι} {serve : σ → List ε} {a : List σ}
    (ha : ∀ s ∈ a, Serves M serve s) (b : List σ) (k : κ) :
    run (step M) ⟨a ++ b, k⟩ (a.flatMap serve) = some ⟨b, k⟩ := by
  induction a with
  | nil => rfl
  | cons s rest ih =>
    rw [List.flatMap_cons]
    exact run_join (ha s (by simp) (rest ++ b) k) (ih fun t ht => ha t (by simp [ht]))

/-- The labels of a cooperative environment along a list of inputs. -/
def served (M : Machine σ ε κ ι) (serve : σ → List ε) (ask : ι → ε) : κ → List ι → List ε
  | _, [] => []
  | k, i :: is => ask i :: (M.react k i).1.flatMap serve ++ served M serve ask (M.react k i).2 is

theorem run_served {M : Machine σ ε κ ι} {serve : σ → List ε} {ask : ι → ε}
    (hask : ∀ i, M.heard (ask i) = some i) (hs : ∀ k i, ∀ s ∈ (M.react k i).1, Serves M serve s)
    (k : κ) (is : List ι) :
    run (step M) ⟨[], k⟩ (served M serve ask k is) = some ⟨[], after M k is⟩ := by
  induction is generalizing k with
  | nil => rfl
  | cons i is ih =>
    have hscript := run_serve (hs k i) [] (M.react k i).2
    rw [List.append_nil] at hscript
    simp only [served, List.cons_append, run_cons, step_nil, hask, Option.map_some,
      Option.bind_some, after_cons]
    exact run_join hscript (ih _)

theorem inputs_flatMap (M : Machine σ ε κ ι) {serve : σ → List ε}
    (hserve : ∀ s, inputs M (serve s) = []) (a : List σ) : inputs M (a.flatMap serve) = [] := by
  induction a with
  | nil => rfl
  | cons s a ih => rw [List.flatMap_cons, inputs_append, hserve, ih, List.append_nil]

theorem inputs_served {M : Machine σ ε κ ι} {serve : σ → List ε} {ask : ι → ε}
    (hask : ∀ i, M.heard (ask i) = some i) (hserve : ∀ s, inputs M (serve s) = [])
    (k : κ) (is : List ι) : inputs M (served M serve ask k is) = is := by
  induction is generalizing k with
  | nil => rfl
  | cons i is ih =>
    rw [served, List.cons_append, inputs_cons_some (hask i), inputs_append,
      inputs_flatMap M hserve, ih, List.nil_append]

/-- An infinite run, one label for each moment. -/
structure Execution (M : Machine σ ε κ ι) where
  config : Nat → Config σ κ
  event : Nat → ε
  stepped : ∀ n, step M (config n) (event n) = some (config (n + 1))

namespace Execution

variable {M : Machine σ ε κ ι} (x : Execution M)

/-- The labels before moment n. -/
def trace (n : Nat) : List ε := (List.range n).map x.event

theorem trace_succ (n : Nat) : x.trace (n + 1) = x.trace n ++ [x.event n] := by
  simp [trace, List.range_succ]

theorem trace_prefix {n m : Nat} (h : n ≤ m) : x.trace n <+: x.trace m := by
  obtain ⟨k, rfl⟩ := Nat.exists_eq_add_of_le h
  rw [trace, trace, List.range_add, List.map_append]
  exact List.prefix_append _ _

theorem run_trace (n : Nat) : run (step M) (x.config 0) (x.trace n) = some (x.config n) := by
  induction n with
  | zero => rfl
  | succ n ih => exact x.trace_succ n ▸ run_snoc ih (x.stepped n)

/-- A wait begun at moment n ends: later only the statements after it remain. -/
def Returned (n : Nat) : Prop :=
  ∀ s rest, (x.config n).todo = s :: rest →
    ∃ m, n < m ∧ (x.config m).todo = rest ∧ inputs M (x.trace m) = inputs M (x.trace n)

/-- A step while something of a statement is left: the statement ends, or something of it is
still left; no input is taken. -/
theorem step_inside {p : Nat} {l rest : List σ} (hl : l ≠ [])
    (htodo : (x.config p).todo = l ++ rest) :
    inputs M (x.trace (p + 1)) = inputs M (x.trace p) ∧
      ((x.config (p + 1)).todo = rest ∨ ∃ l', l' ≠ [] ∧ (x.config (p + 1)).todo = l' ++ rest) := by
  obtain ⟨t, more, q, ht, hq, hc⟩ | ⟨i, hi, -, -⟩ := step_cases (x.stepped p)
  · constructor
    · rw [trace_succ, inputs_append, inputs_cons_none (micro_not_heard hq), inputs_nil,
        List.append_nil]
    · cases l with
      | nil => exact absurd rfl hl
      | cons y l =>
        have hmore : more = l ++ rest := (List.cons.inj (ht.symm.trans htodo)).2
        have hnext : (x.config (p + 1)).todo = (q ++ l) ++ rest := by
          rw [hc, hmore, List.append_assoc]
        by_cases hdone : q ++ l = []
        · exact .inl (by rw [hnext, hdone, List.nil_append])
        · exact .inr ⟨q ++ l, hdone, hnext⟩
  · rw [htodo] at hi
    exact absurd (List.append_eq_nil_iff.mp hi).1 hl

/-- Up to any later moment a statement has ended or something of it is left. -/
theorem ended_or_inside {n : Nat} {s : σ} {rest : List σ} (hs : (x.config n).todo = s :: rest)
    (d : Nat) :
    (∃ p, n < p ∧ p ≤ n + d ∧ (x.config p).todo = rest ∧
      inputs M (x.trace p) = inputs M (x.trace n)) ∨
    ∃ l, l ≠ [] ∧ (x.config (n + d)).todo = l ++ rest ∧
      inputs M (x.trace (n + d)) = inputs M (x.trace n) := by
  induction d with
  | zero => exact .inr ⟨[s], by simp, hs, rfl⟩
  | succ d ih =>
    obtain ⟨p, hp, hpd, hdone⟩ | ⟨l, hl, htodo, hin⟩ := ih
    · exact .inl ⟨p, hp, by omega, hdone⟩
    · obtain ⟨hsame, hended | ⟨l', hl', hinside⟩⟩ := x.step_inside hl htodo
      · exact .inl ⟨n + d + 1, by omega, by omega, hended, hsame.trans hin⟩
      · exact .inr ⟨l', hl', hinside, hsame.trans hin⟩

/-- A statement is over by the time that fewer statements are left than there were behind it. -/
theorem returned_of_shorter {n m : Nat} (hnm : n ≤ m) {s : σ} {rest : List σ}
    (hs : (x.config n).todo = s :: rest) (hshort : (x.config m).todo.length ≤ rest.length) :
    x.Returned n := by
  intro t more ht
  have hrest : rest = more := (List.cons.inj (hs.symm.trans ht)).2
  subst hrest
  obtain ⟨p, hp, -, hdone⟩ | ⟨l, hl, htodo, -⟩ := x.ended_or_inside hs (m - n)
  · exact ⟨p, hp, hdone⟩
  · rw [Nat.add_sub_cancel' hnm] at htodo
    have hpos := List.length_pos_iff.mpr hl
    rw [htodo, List.length_append] at hshort
    omega

/-- Statements that are no waits finish in one step. -/
theorem returned_of_step {n : Nat} {s : σ} {rest : List σ} (hc : (x.config n).todo = s :: rest)
    (hs : ∀ e l, M.micro s e = some l → l = []) : x.Returned n := by
  intro t more ht
  obtain ⟨u, us, l, hu, hl, he⟩ | ⟨i, hi, -, -⟩ := step_cases (x.stepped n)
  · have hsu : u = s ∧ us = rest := by simpa [hu] using hc
    have htu : u = t ∧ us = more := by simpa [hu] using ht
    have hnil := hs _ _ (hsu.1 ▸ hl)
    refine ⟨n + 1, by omega, by simp [he, hnil, htu.2], ?_⟩
    rw [trace_succ, inputs_append, inputs_cons_none (micro_not_heard hl)]
    simp
  · rw [hi] at hc; cases hc

/-- If every wait among `scripted` statements that starts after the same inputs ends,
the whole script ends and the machine asks for its next input. -/
theorem reaches_idle (scripted : σ → Prop) {n : Nat}
    (hall : ∀ s ∈ (x.config n).todo, scripted s)
    (hret : ∀ m s rest, inputs M (x.trace m) = inputs M (x.trace n) →
      (x.config m).todo = s :: rest → scripted s → x.Returned m) :
    ∃ m, n ≤ m ∧ (x.config m).todo = [] ∧ inputs M (x.trace m) = inputs M (x.trace n) := by
  generalize hl : (x.config n).todo = l at hall
  induction l generalizing n with
  | nil => exact ⟨n, Nat.le_refl n, hl, rfl⟩
  | cons s rest ih =>
    obtain ⟨m, hnm, hm, hin⟩ := hret n s rest rfl hl (hall s (by simp)) s rest hl
    obtain ⟨p, hmp, hp, hpin⟩ := ih (n := m)
      (fun q t more hq => hret q t more (hq.trans hin)) hm (fun t ht => hall t (by simp [ht]))
    exact ⟨p, by omega, hp, hpin.trans hin⟩

/-- Liveness: as long as the waits before input number `count` end, input `count` is asked for. -/
theorem asks (scripted : σ → Prop) (count : Nat)
    (hstart : ∀ s ∈ (x.config 0).todo, scripted s)
    (hreact : ∀ k i, ∀ s ∈ (M.react k i).1, scripted s)
    (hret : ∀ m s rest, (inputs M (x.trace m)).length ≤ count →
      (x.config m).todo = s :: rest → scripted s → x.Returned m) :
    ∃ m, (x.config m).todo = [] ∧ (inputs M (x.trace m)).length = count := by
  induction count with
  | zero =>
    obtain ⟨m, -, hm, hin⟩ := x.reaches_idle scripted (n := 0) hstart
      (fun q s rest hq => hret q s rest (by rw [hq]; exact Nat.le_refl 0))
    exact ⟨m, hm, by rw [hin]; rfl⟩
  | succ count ih =>
    obtain ⟨m, hm, hlen⟩ := ih fun q s rest hq => hret q s rest (by omega)
    obtain ⟨s, rest, l, hs, -, -⟩ | ⟨i, -, hi, he⟩ := step_cases (x.stepped m)
    · rw [hm] at hs; cases hs
    · have hnext : (inputs M (x.trace (m + 1))).length = count + 1 := by
        rw [trace_succ, inputs_append, List.length_append, hlen, inputs_cons_some hi]
        rfl
      obtain ⟨p, -, hp, hin⟩ := x.reaches_idle scripted (n := m + 1)
        (by rw [he]; exact hreact _ _)
        (fun q s rest hq => hret q s rest (by rw [hq]; omega))
      exact ⟨p, hp, by rw [hin, hnext]⟩

/-- A finite run whose last state an environment can hold for ever. -/
def stall {c d : Config σ κ} {es : List ε} {e : ε} (h : run (step M) c es = some d)
    (hloop : step M d e = some d) : Execution M where
  config n := (run (step M) c (es.take n)).getD d
  event n := es[n]?.getD e
  stepped n := by
    obtain hn | hn := Nat.lt_or_ge n es.length
    · have hes : es.take n ++ es[n] :: es.drop (n + 1) = es := by
        rw [List.getElem_cons_drop, List.take_append_drop]
      rw [← hes] at h
      obtain ⟨a, ha, hrest⟩ := run_split h
      obtain ⟨b, hb, -⟩ := Option.bind_eq_some_iff.mp hrest
      have hnext : run (step M) c (es.take (n + 1)) = some b := by
        rw [List.take_add_one, List.getElem?_eq_getElem hn, Option.toList_some]
        exact run_snoc ha hb
      rw [ha, hnext, List.getElem?_eq_getElem hn]
      exact hb
    · rw [List.take_of_length_le hn, List.take_of_length_le (Nat.le_succ_of_le hn), h,
        List.getElem?_eq_none hn]
      exact hloop

theorem stall_config {c d : Config σ κ} {es : List ε} {e : ε} (h : run (step M) c es = some d)
    (hloop : step M d e = some d) (n : Nat) :
    run (step M) c (es.take n) = some ((stall h hloop).config n) := by
  have hsplit : run (step M) c (es.take n ++ es.drop n) = some d := by
    rw [List.take_append_drop]
    exact h
  obtain ⟨a, ha, -⟩ := run_split hsplit
  simp [stall, ha]

theorem stall_trace {c d : Config σ κ} {es : List ε} {e : ε} (h : run (step M) c es = some d)
    (hloop : step M d e = some d) {n : Nat} (hn : n ≤ es.length) :
    (stall h hloop).trace n = es.take n := by
  induction n with
  | zero => rfl
  | succ n ih =>
    have hlt : n < es.length := hn
    rw [trace_succ, ih (Nat.le_of_lt hlt), List.take_add_one, List.getElem?_eq_getElem hlt,
      Option.toList_some]
    simp [stall, List.getElem?_eq_getElem hlt]

end Execution

end Reactive
