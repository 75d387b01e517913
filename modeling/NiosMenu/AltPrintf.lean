import Mathlib.Data.Nat.Digits.Lemmas
import NiosMenu.Firmware

/-!
# `alt_printf`

The small printf of the board support package, with %c, %x, %s and %%: it goes over the
format once, and what each piece of the format shows is written behind what the pieces
before it have shown. A number is shown in hexadecimal digits without a leading zero.
-/
namespace AltPrintf

open Firmware

/-- What a `va_list` holds: a word, or the array that a `char *` points to. -/
inductive Arg where
  | word (v : Word)
  | text (s : List Byte)
  deriving DecidableEq, Repr

/-- The byte that `alt_putchar` writes. -/
def altPutchar (c : Word) : Byte := low (c &&& 0xFF#32)

/-- A C string up to its NUL; an array without one is read beyond its end. -/
def chars (s : List Byte) : Option (List Byte) :=
  if 0 ∈ s then some (s.takeWhile (· ≠ 0)) else none

/-! ## %x -/

/-- The first shift, of 4 * n and less, that brings out a digit; no shift is negative. -/
def digitShift (v : Word) : Nat → Option Nat
  | 0 => if v &&& 0xF#32 <<< 0 = 0 then none else some 0
  | n + 1 => if v &&& 0xF#32 <<< (4 * (n + 1)) = 0 then digitShift v n else some (n + 1)

def digitAt (v : Word) (n : Nat) : Word := (v &&& 0xF#32 <<< (4 * n)) >>> (4 * n)

def digitChar (digit : Word) : Word := if digit ≤ 9 then 0x30 + digit else 0x61 + digit - 10

def printDigits (v : Word) : Nat → List Byte
  | 0 => [altPutchar (digitChar (digitAt v 0))]
  | n + 1 => altPutchar (digitChar (digitAt v (n + 1))) :: printDigits v n

def hex (v : Word) : Option (List Byte) :=
  if v = 0 then some [0x30] else (digitShift v 7).map (printDigits v)

/-- A digit of a number, as C writes it. -/
def asciiDigit (d : Nat) : Byte := BitVec.ofNat 8 (if d < 10 then 0x30 + d else 0x61 + (d - 10))

theorem digitAt_eq (v : Word) (n : Nat) : digitAt v n = v >>> (4 * n) &&& 0xF := by
  apply BitVec.eq_of_getLsbD_eq
  intro i hi
  by_cases hin : 4 * n + i < 32
  · simp [digitAt, hin, -BitVec.getLsbD_eq_getElem]
  · simp [digitAt, BitVec.getLsbD_of_ge v (4 * n + i) (by omega)]

theorem toNat_digitAt (v : Word) (n : Nat) : (digitAt v n).toNat = v.toNat / 16 ^ n % 16 := by
  have hpow : 2 ^ (4 * n) = 16 ^ n := by rw [Nat.pow_mul]
  have hmod := Nat.and_two_pow_sub_one_eq_mod (v.toNat / 16 ^ n) 4
  rw [digitAt_eq, BitVec.toNat_and, BitVec.toNat_ushiftRight, Nat.shiftRight_eq_div_pow, hpow]
  exact hmod

/-- The test of the first loop looks at one digit. -/
theorem test_digit (v : Word) (n : Nat) :
    v &&& 0xF#32 <<< (4 * n) = 0 ↔ v.toNat / 16 ^ n % 16 = 0 := by
  rw [← toNat_digitAt]
  constructor
  · intro h
    rw [digitAt, h]
    simp
  · intro h
    have hzero : digitAt v n = 0 := BitVec.eq_of_toNat_eq (by simpa using h)
    apply BitVec.eq_of_getLsbD_eq
    intro j hj
    by_cases hlow : j < 4 * n
    · simp [hlow]
    · have hbit := congrArg (fun x : Word => x.getLsbD (j - 4 * n)) hzero
      have hback : 4 * n + (j - 4 * n) = j := by omega
      simpa [digitAt, hback] using hbit

theorem putchar_digitChar {digit : Word} (h : digit.toNat < 16) :
    altPutchar (digitChar digit) = asciiDigit digit.toNat := by
  have hall : ∀ d : Fin 16, altPutchar (digitChar (BitVec.ofNat 32 d.val)) = asciiDigit d.val := by
    decide
  have hdigit := hall ⟨digit.toNat, h⟩
  rwa [BitVec.ofNat_toNat, BitVec.setWidth_eq] at hdigit

theorem printDigits_eq (v : Word) (n : Nat) :
    printDigits v n =
      ((List.range (n + 1)).map fun i => asciiDigit (v.toNat / 16 ^ i % 16)).reverse := by
  have hone : ∀ i, altPutchar (digitChar (digitAt v i)) = asciiDigit (v.toNat / 16 ^ i % 16) := by
    intro i
    have hsmall : (digitAt v i).toNat < 16 := by
      rw [toNat_digitAt]
      omega
    rw [putchar_digitChar hsmall, toNat_digitAt]
  induction n with
  | zero => simpa [printDigits] using hone 0
  | succ n ih =>
    have hlast : List.range (n + 1 + 1) = List.range (n + 1) ++ [n + 1] := List.range_succ
    rw [printDigits, ih, hone, hlast, List.map_append, List.reverse_append]
    rfl

/-- The first loop stops at the highest digit that is not zero. -/
theorem digitShift_top {v : Word} (hv : v ≠ 0) {n : Nat} (h : v.toNat < 16 ^ (n + 1)) :
    ∃ k, digitShift v n = some k ∧ 16 ^ k ≤ v.toNat ∧ v.toNat < 16 ^ (k + 1) := by
  induction n with
  | zero =>
    have hpos : v.toNat ≠ 0 := fun hzero => hv (BitVec.eq_of_toNat_eq hzero)
    have htest := test_digit v 0
    refine ⟨0, ?_, by omega, h⟩
    rw [digitShift, if_neg]
    intro hzero
    have := htest.mp hzero
    omega
  | succ n ih =>
    have hdiv : v.toNat / 16 ^ (n + 1) < 16 := by
      rw [Nat.div_lt_iff_lt_mul (by positivity), ← Nat.pow_succ']
      exact h
    have htest := test_digit v (n + 1)
    rw [Nat.mod_eq_of_lt hdiv] at htest
    rw [digitShift]
    by_cases hzero : v &&& 0xF#32 <<< (4 * (n + 1)) = 0
    · rw [if_pos hzero]
      apply ih
      by_contra hge
      have hone := Nat.div_pos (Nat.le_of_not_lt hge) (by positivity)
      have := htest.mp hzero
      omega
    · rw [if_neg hzero]
      refine ⟨n + 1, rfl, ?_, h⟩
      by_contra hlt
      exact hzero (htest.mpr (Nat.div_eq_of_lt (Nat.lt_of_not_le hlt)))

/-- The digits of a number, the lowest first, are its quotients. -/
theorem digits_eq_map {m k : Nat} (hlow : 16 ^ k ≤ m) (hhigh : m < 16 ^ (k + 1)) :
    Nat.digits 16 m = (List.range (k + 1)).map fun i => m / 16 ^ i % 16 := by
  have hlen : (Nat.digits 16 m).length = k + 1 := by
    have hup := (Nat.digits_length_le_iff (k := k + 1) (by decide : 1 < 16) m).mpr hhigh
    have hdown := (Nat.lt_digits_length_iff (k := k) (by decide : 1 < 16) m).mpr hlow
    omega
  apply List.ext_getElem
  · simpa using hlen
  · intro i hi _
    have hget := Nat.getD_digits m i (b := 16) (by decide)
    rw [List.getD_eq_getElem?_getD, List.getElem?_eq_getElem hi, Option.getD_some] at hget
    simpa using hget

theorem hex_zero : hex 0 = some [asciiDigit 0] := rfl

theorem hex_pos {v : Word} (hv : v ≠ 0) :
    hex v = some ((Nat.digits 16 v.toNat).reverse.map asciiDigit) := by
  obtain ⟨k, hshift, hlow, hhigh⟩ := digitShift_top hv (n := 7) v.isLt
  rw [hex, if_neg hv, hshift, Option.map_some, printDigits_eq, digits_eq_map hlow hhigh,
    ← List.map_reverse, ← List.map_reverse, List.map_map]
  rfl

/-- %x shows the digits of every word in base 16, the highest one first, without a leading
zero. -/
theorem hex_digits (v : Word) :
    hex v = some (if v = 0 then [asciiDigit 0]
      else (Nat.digits 16 v.toNat).reverse.map asciiDigit) := by
  by_cases hv : v = 0
  · rw [if_pos hv, hv, hex_zero]
  · rw [if_neg hv, hex_pos hv]

/-! ## The format -/

/-- The character '%'. -/
def percent : Byte := 0x25#8

/-- What the character behind a '%' shows, and the arguments that it leaves. -/
def convert (c : Byte) (args : List Arg) : Option (List Byte × List Arg) :=
  if c = percent then some ([altPutchar (promote c)], args)
  else if c = 0x63#8 then
    match args with
    | .word v :: args => some ([altPutchar v], args)
    | _ => none
  else if c = 0x78#8 then
    match args with
    | .word v :: args => (hex v).map (·, args)
    | _ => none
  else if c = 0x73#8 then
    match args with
    | .text s :: args => (chars s).map fun cs => (cs.map fun c => altPutchar (promote c), args)
    | _ => none
  else some ([], args)

/-- The bytes written; none where the format or an argument is read beyond its end. -/
def altPrintf : List Byte → List Arg → Option (List Byte)
  | [], _ => none
  | c :: w, args =>
    if c = 0#8 then some []
    else if c ≠ percent then (altPrintf w args).map (altPutchar (promote c) :: ·)
    else
      match w with
      | [] => none
      | c :: w =>
        if c = 0#8 then some []
        else (convert c args).bind fun shown => (altPrintf w shown.2).map (shown.1 ++ ·)

theorem altPutchar_low (v : Word) : altPutchar v = low v := by
  have hmask : (0xFF#32).setWidth 8 = BitVec.allOnes 8 := by decide
  rw [altPutchar, low, BitVec.setWidth_and, hmask, BitVec.and_allOnes]
  rfl

@[simp] theorem altPutchar_promote (c : Byte) : altPutchar (promote c) = c := by
  rw [altPutchar_low, low_promote]

theorem altPrintf_nul (w : List Byte) (args : List Arg) : altPrintf (0#8 :: w) args = some [] := by
  cases w <;> simp [altPrintf]

theorem altPrintf_char {c : Byte} (hnul : c ≠ 0#8) (hpercent : c ≠ percent) (w : List Byte)
    (args : List Arg) : altPrintf (c :: w) args = (altPrintf w args).map (c :: ·) := by
  cases w <;> simp [altPrintf, hnul, hpercent]

theorem altPrintf_percent (c : Byte) (w : List Byte) (args : List Arg) :
    altPrintf (percent :: c :: w) args =
      if c = 0#8 then some []
      else (convert c args).bind fun shown => (altPrintf w shown.2).map (shown.1 ++ ·) := by
  have hnul : percent ≠ 0#8 := by decide
  simp [altPrintf, hnul]

/-- The pieces of a format: a character, %%, %c, %x, %s, and a '%' with another character. -/
inductive Piece where
  | char (c : Byte)
  | doubled
  | character
  | number
  | text
  | other (c : Byte)
  deriving DecidableEq, Repr

def Piece.spell : Piece → List Byte
  | .char c => [c]
  | .doubled => [percent, percent]
  | .character => [percent, 0x63#8]
  | .number => [percent, 0x78#8]
  | .text => [percent, 0x73#8]
  | .other c => [percent, c]

def Piece.Ok : Piece → Prop
  | .char c => c ≠ 0#8 ∧ c ≠ percent
  | .other c => c ∉ [0#8, percent, 0x63#8, 0x78#8, 0x73#8]
  | _ => True

/-- A number as %x shows it. -/
def numeral (v : Word) : List Byte :=
  if v = 0 then [asciiDigit 0] else (Nat.digits 16 v.toNat).reverse.map asciiDigit

/-- What a piece shows, and the arguments that it leaves: a character the low byte of a word, a
number its digits, a text the bytes before the first NUL, and a '%' with another character
nothing. -/
def Piece.shown : Piece → List Arg → Option (List Byte × List Arg)
  | .char c, args => some ([c], args)
  | .doubled, args => some ([percent], args)
  | .character, .word v :: args => some ([low v], args)
  | .number, .word v :: args => some (numeral v, args)
  | .text, .text s :: args => if 0 ∈ s then some (s.takeWhile (· ≠ 0), args) else none
  | .other _, args => some ([], args)
  | _, _ => none

/-- The piece of a '%' and the character behind it. -/
def Piece.escaped (c : Byte) : Piece :=
  if c = percent then .doubled
  else if c = 0x63#8 then .character
  else if c = 0x78#8 then .number
  else if c = 0x73#8 then .text
  else .other c

theorem spell_escaped (c : Byte) : (Piece.escaped c).spell = [percent, c] := by
  unfold Piece.escaped
  split_ifs with hdoubled hcharacter hnumber htext
  · rw [Piece.spell, hdoubled]
  · rw [Piece.spell, hcharacter]
  · rw [Piece.spell, hnumber]
  · rw [Piece.spell, htext]
  · rfl

theorem ok_escaped {c : Byte} (hnul : c ≠ 0#8) : (Piece.escaped c).Ok := by
  unfold Piece.escaped
  split_ifs with hdoubled hcharacter hnumber htext
  · trivial
  · trivial
  · trivial
  · trivial
  · simp [Piece.Ok, hnul, hdoubled, hcharacter, hnumber, htext]

theorem convert_number (args : List Arg) : convert 0x78#8 args = Piece.number.shown args := by
  cases args with
  | nil => rfl
  | cons a args =>
    cases a with
    | text s => rfl
    | word v =>
      have hconvert : convert 0x78#8 (.word v :: args) = (hex v).map (·, args) := rfl
      rw [hconvert, Piece.shown, numeral]
      by_cases hv : v = 0
      · rw [if_pos hv, hv, hex_zero, Option.map_some]
      · rw [if_neg hv, hex_pos hv, Option.map_some]

theorem convert_character (args : List Arg) :
    convert 0x63#8 args = Piece.character.shown args := by
  cases args with
  | nil => rfl
  | cons a args =>
    cases a with
    | text s => rfl
    | word v => exact congrArg (fun c => some ([c], args)) (altPutchar_low v)

theorem convert_text (args : List Arg) : convert 0x73#8 args = Piece.text.shown args := by
  cases args with
  | nil => rfl
  | cons a args =>
    cases a with
    | word v => rfl
    | text s =>
      have hconvert : convert 0x73#8 (.text s :: args) =
          (chars s).map fun cs => (cs.map fun c => altPutchar (promote c), args) := rfl
      have hid : (fun c => altPutchar (promote c)) = id := funext altPutchar_promote
      rw [hconvert, Piece.shown, chars, hid]
      by_cases hs : 0 ∈ s
      · rw [if_pos hs, if_pos hs, Option.map_some, List.map_id]
      · rw [if_neg hs, if_neg hs, Option.map_none]

/-- The program does what each of the escapes is meant to show. -/
theorem convert_escaped {p : Piece} (hp : p.Ok) {c : Byte} (hspell : p.spell = [percent, c])
    (args : List Arg) : c ≠ 0#8 ∧ convert c args = p.shown args := by
  cases p with
  | char d => cases hspell
  | doubled =>
    obtain rfl : percent = c := by simpa [Piece.spell] using hspell
    exact ⟨by decide, by simp [convert, Piece.shown]⟩
  | character =>
    obtain rfl : 0x63#8 = c := by simpa [Piece.spell] using hspell
    exact ⟨by decide, convert_character args⟩
  | number =>
    obtain rfl : 0x78#8 = c := by simpa [Piece.spell] using hspell
    exact ⟨by decide, convert_number args⟩
  | text =>
    obtain rfl : 0x73#8 = c := by simpa [Piece.spell] using hspell
    exact ⟨by decide, convert_text args⟩
  | other d =>
    obtain rfl : d = c := by simpa [Piece.spell] using hspell
    obtain ⟨hnul, hdoubled, hcharacter, hnumber, htext⟩ : d ≠ 0#8 ∧ d ≠ percent ∧ d ≠ 0x63#8 ∧
        d ≠ 0x78#8 ∧ d ≠ 0x73#8 := by
      simpa [Piece.Ok] using hp
    exact ⟨hnul, by simp [convert, Piece.shown, hdoubled, hcharacter, hnumber, htext]⟩

/-- What pieces show one behind the other, and the arguments that they leave. -/
def render : List Piece → List Arg → Option (List Byte × List Arg)
  | [], args => some ([], args)
  | p :: ps, args => (p.shown args).bind fun s => (render ps s.2).map fun r => (s.1 ++ r.1, r.2)

theorem spell_cases (p : Piece) : (∃ c, p = .char c) ∨ ∃ c, p.spell = [percent, c] := by
  cases p with
  | char c => exact .inl ⟨c, rfl⟩
  | _ => exact .inr ⟨_, rfl⟩

theorem altPrintf_piece {p : Piece} (hp : p.Ok) (w : List Byte) (args : List Arg) :
    altPrintf (p.spell ++ w) args =
      (p.shown args).bind fun s => (altPrintf w s.2).map (s.1 ++ ·) := by
  obtain ⟨c, rfl⟩ | ⟨c, hspell⟩ := spell_cases p
  · rw [Piece.spell, List.singleton_append, altPrintf_char hp.1 hp.2]
    rfl
  · obtain ⟨hnul, hconvert⟩ := convert_escaped hp hspell args
    rw [hspell, List.cons_append, List.singleton_append, altPrintf_percent, if_neg hnul, hconvert]

/-- Formats compose: the rest of a format goes on with the arguments that are left. -/
theorem altPrintf_pieces {ps : List Piece} (hps : ∀ p ∈ ps, p.Ok) (w : List Byte)
    (args : List Arg) :
    altPrintf (ps.flatMap Piece.spell ++ w) args =
      (render ps args).bind fun s => (altPrintf w s.2).map (s.1 ++ ·) := by
  induction ps generalizing args with
  | nil => simp [render]
  | cons p ps ih =>
    rw [List.flatMap_cons, List.append_assoc, altPrintf_piece (hps p (by simp)), render]
    cases p.shown args with
    | none => rfl
    | some s =>
      rw [Option.bind_some, Option.bind_some, ih fun q hq => hps q (by simp [hq])]
      cases render ps s.2 with
      | none => rfl
      | some r => simp [List.append_assoc, Function.comp_def]

/-- Where a format ends: at its NUL, or at a '%' with the NUL behind it. -/
def Ends (w : List Byte) : Prop := ∃ rest, w = 0#8 :: rest ∨ w = percent :: 0#8 :: rest

theorem altPrintf_ends {w : List Byte} (h : Ends w) (args : List Arg) :
    altPrintf w args = some [] := by
  obtain ⟨rest, rfl | rfl⟩ := h
  · exact altPrintf_nul rest args
  · rw [altPrintf_percent, if_pos rfl]

theorem pieces_exist : ∀ fmt : List Byte, 0#8 ∈ fmt →
    ∃ (ps : List Piece) (w : List Byte),
      (∀ p ∈ ps, p.Ok) ∧ Ends w ∧ fmt = ps.flatMap Piece.spell ++ w
  | [], h => by cases h
  | c :: w, h => by
    by_cases hzero : c = 0#8
    · exact ⟨[], c :: w, by simp, ⟨w, .inl (by rw [hzero])⟩, rfl⟩
    · have hrest : 0#8 ∈ w := (List.mem_cons.mp h).resolve_left fun hc => hzero hc.symm
      by_cases hpercent : c = percent
      · cases w with
        | nil => cases hrest
        | cons d w =>
          by_cases hend : d = 0#8
          · exact ⟨[], c :: d :: w, by simp, ⟨w, .inr (by rw [hpercent, hend])⟩, rfl⟩
          · have hmore : 0#8 ∈ w := (List.mem_cons.mp hrest).resolve_left fun hd => hend hd.symm
            obtain ⟨ps, u, hps, hu, rfl⟩ := pieces_exist w hmore
            refine ⟨.escaped d :: ps, u, ?_, hu, by simp [spell_escaped, hpercent]⟩
            exact List.forall_mem_cons.mpr ⟨ok_escaped hend, hps⟩
      · obtain ⟨ps, u, hps, hu, rfl⟩ := pieces_exist w hrest
        refine ⟨.char c :: ps, u, ?_, hu, by simp [Piece.spell]⟩
        exact List.forall_mem_cons.mpr ⟨⟨hzero, hpercent⟩, hps⟩

/-- Every format with a NUL consists of pieces, and what the program writes is what these are
meant to show, one behind the other, each with the arguments that those before it have left. -/
theorem printed_pieces {fmt : List Byte} (hnul : 0#8 ∈ fmt) (args : List Arg) :
    ∃ (ps : List Piece) (w : List Byte),
      (∀ p ∈ ps, p.Ok) ∧ Ends w ∧ fmt = ps.flatMap Piece.spell ++ w ∧
      altPrintf fmt args = (render ps args).map Prod.fst := by
  obtain ⟨ps, w, hps, hw, rfl⟩ := pieces_exist fmt hnul
  refine ⟨ps, w, hps, hw, rfl, ?_⟩
  rw [altPrintf_pieces hps]
  cases render ps args with
  | none => rfl
  | some s => simp [altPrintf_ends hw]

theorem printed_pieces_beef :
    altPrintf (cString "0x%x%%") [.word 0xBEEF] = some (ascii "0xbeef%") ∧
      ∃ (ps : List Piece) (w : List Byte), (∀ p ∈ ps, p.Ok) ∧ Ends w ∧
        cString "0x%x%%" = ps.flatMap Piece.spell ++ w ∧
        altPrintf (cString "0x%x%%") [.word 0xBEEF] =
          (render ps [.word 0xBEEF]).map Prod.fst :=
  ⟨by decide +kernel, printed_pieces (by decide) _⟩

/-- A text with every '%' doubled. -/
def escape (text : List Byte) : List Byte :=
  text.flatMap fun c => if c = percent then [percent, percent] else [c]

def escapePiece (c : Byte) : Piece := if c = percent then .doubled else .char c

theorem render_escape (text : List Byte) (args : List Arg) :
    render (text.map escapePiece) args = some (text, args) := by
  induction text with
  | nil => rfl
  | cons c text ih =>
    have hone : (escapePiece c).shown args = some ([c], args) := by
      by_cases hc : c = percent <;> simp [escapePiece, hc, Piece.shown]
    rw [List.map_cons, render, hone, Option.bind_some, ih]
    rfl

/-- A text without a NUL is printed as it is, if every '%' of it is doubled. -/
theorem printed_escaped {text : List Byte} (hnul : 0#8 ∉ text) (rest : List Byte)
    (args : List Arg) : altPrintf (escape text ++ 0#8 :: rest) args = some text := by
  have hspell : escape text = (text.map escapePiece).flatMap Piece.spell := by
    rw [escape, List.flatMap_map]
    congr 1
    funext c
    by_cases hc : c = percent <;> simp [escapePiece, hc, Piece.spell]
  have hok : ∀ p ∈ text.map escapePiece, p.Ok := by
    intro p hp
    obtain ⟨c, hc, rfl⟩ := List.mem_map.mp hp
    have hne : c ≠ 0#8 := fun h => hnul (h ▸ hc)
    by_cases hpercent : c = percent
    · simp [escapePiece, hpercent, Piece.Ok]
    · simpa [escapePiece, hpercent, Piece.Ok] using hne
  rw [hspell, altPrintf_pieces hok, render_escape, Option.bind_some, altPrintf_nul]
  simp

/-- The two kinds of calls in the program, a literal without '%' and one character. -/
theorem printed_calls :
    (altPrintf (cString "Message sent") []).map (List.map Stmt.jtagWrite) =
      some (Firmware.altPrintf "Message sent") ∧
    ∀ check : Byte, (altPrintf (cString "%c") [.word (promote check)]).map
      (List.map Stmt.jtagWrite) = some [.jtagWrite check] := by
  constructor
  · have htext := @printed_escaped (ascii "Message sent") (by decide) [] []
    have hsame : escape (ascii "Message sent") = ascii "Message sent" := by decide
    have hstring : cString "Message sent" = ascii "Message sent" ++ [0#8] := rfl
    rw [hsame] at htext
    rw [hstring, htext]
    rfl
  · intro check
    have hfmt : cString "%c" = percent :: 0x63#8 :: 0#8 :: [] := by decide
    rw [hfmt, altPrintf_percent]
    simp [convert, percent, altPrintf_nul]

end AltPrintf
