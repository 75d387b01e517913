import Mathlib.Data.List.Basic

/-!
# Lines and announced payloads

A byte stream of terminated lines in which some lines announce how many of the
following bytes are a payload. The scanner takes one byte at a time; a stream
rendered from well-formed items is scanned back into exactly those items.
-/
namespace Framing

variable {β : Type} [DecidableEq β]

/-- The two terminator bytes and the announcement that a complete line may make. -/
structure Format (β : Type) where
  cr : β
  lf : β
  announce : List β → Option Nat

inductive Frame (β : Type) where
  | line (text : List β)
  | payload (data : List β)
  deriving DecidableEq, Repr

/-- Inside a line, or inside a payload of which `missing + 1` bytes are still to come. -/
inductive Mode (β : Type) where
  | line (text : List β)
  | payload (missing : Nat) (data : List β)
  deriving DecidableEq, Repr

/-- The end of a line, and what its announcement starts. -/
def close (F : Format β) (text : List β) : List (Frame β) × Mode β :=
  match F.announce text with
  | none => ([.line text], .line [])
  | some 0 => ([.line text, .payload []], .line [])
  | some (n + 1) => ([.line text], .payload n [])

/-- One byte: the frames it completes and the next mode. -/
def push (F : Format β) : Mode β → β → List (Frame β) × Mode β
  | .line text, b =>
    if b = F.lf ∧ text.getLast? = some F.cr then close F text.dropLast
    else ([], .line (text ++ [b]))
  | .payload 0 data, b => ([.payload (data ++ [b])], .line [])
  | .payload (n + 1) data, b => ([], .payload n (data ++ [b]))

def scan (F : Format β) : Mode β → List β → List (Frame β) × Mode β
  | m, [] => ([], m)
  | m, b :: bs => ((push F m b).1 ++ (scan F (push F m b).2 bs).1, (scan F (push F m b).2 bs).2)

@[simp] theorem scan_nil (F : Format β) (m : Mode β) : scan F m [] = ([], m) := rfl
@[simp] theorem scan_cons (F : Format β) (m : Mode β) (b : β) (bs : List β) :
    scan F m (b :: bs) =
      ((push F m b).1 ++ (scan F (push F m b).2 bs).1, (scan F (push F m b).2 bs).2) := rfl

theorem scan_append (F : Format β) (m : Mode β) (bs cs : List β) :
    scan F m (bs ++ cs) =
      ((scan F m bs).1 ++ (scan F (scan F m bs).2 cs).1, (scan F (scan F m bs).2 cs).2) := by
  induction bs generalizing m with
  | nil => rfl
  | cons b bs ih => simp [ih, List.append_assoc]

/-- The frames of a stream that ends at a frame boundary. -/
def parse (F : Format β) (bs : List β) : Option (List (Frame β)) :=
  if (scan F (.line []) bs).2 = .line [] then some (scan F (.line []) bs).1 else none

/-- A line with the payload it announces, if it announces one. -/
structure Item (β : Type) where
  text : List β
  payload : Option (List β)
  deriving DecidableEq, Repr

/-- The line has no terminator byte and announces exactly its payload. -/
def Item.Ok (F : Format β) (i : Item β) : Prop :=
  F.cr ∉ i.text ∧ F.announce i.text = i.payload.map List.length

instance (F : Format β) (i : Item β) : Decidable (i.Ok F) := inferInstanceAs (Decidable (_ ∧ _))

def Item.wire (F : Format β) (i : Item β) : List β :=
  i.text ++ [F.cr, F.lf] ++ i.payload.getD []

def Item.frames (i : Item β) : List (Frame β) :=
  .line i.text :: (i.payload.map Frame.payload).toList

/-- Text without a terminator byte is read up to the first terminator. -/
theorem scan_line (F : Format β) (text l : List β) (ht : F.cr ∉ text) (hl : F.cr ∉ l) :
    scan F (.line text) (l ++ [F.cr, F.lf]) = close F (text ++ l) := by
  induction l generalizing text with
  | nil =>
    have hopen : text.getLast? ≠ some F.cr := fun h => ht (List.mem_of_getLast? h)
    simp [push, hopen]
  | cons b l ih =>
    have hopen : text.getLast? ≠ some F.cr := fun h => ht (List.mem_of_getLast? h)
    have hb : F.cr ∉ text ++ [b] := by
      simp only [List.mem_append, List.mem_singleton, not_or]
      exact ⟨ht, fun h => hl (by simp [h])⟩
    have := ih (text ++ [b]) hb fun h => hl (by simp [h])
    simpa [push, hopen] using this

/-- The announced number of bytes is taken whatever the bytes are. -/
theorem scan_payload (F : Format β) (n : Nat) (data p : List β) (hp : p.length = n + 1) :
    scan F (.payload n data) p = ([.payload (data ++ p)], .line []) := by
  induction p generalizing n data with
  | nil => simp at hp
  | cons b p ih =>
    cases n with
    | zero =>
      have hnil : p = [] := List.length_eq_zero_iff.mp (by simpa using hp)
      simp [push, hnil]
    | succ n =>
      have hrest := ih n (data ++ [b]) (by simpa using hp)
      simp only [scan_cons, push, hrest, List.nil_append, List.append_assoc, List.singleton_append]

theorem scan_item (F : Format β) (i : Item β) (hi : i.Ok F) :
    scan F (.line []) (i.wire F) = (i.frames, .line []) := by
  obtain ⟨hcr, hann⟩ := hi
  have hline := scan_line F [] i.text (by simp) hcr
  rw [List.nil_append] at hline
  rw [Item.wire, scan_append, hline]
  cases hp : i.payload with
  | none =>
    have hc : close F i.text = ([.line i.text], .line []) := by simp [close, hann, hp]
    simp [hc, Item.frames, hp]
  | some p =>
    cases p with
    | nil =>
      have hc : close F i.text = ([.line i.text, .payload []], .line []) := by
        simp [close, hann, hp]
      simp [hc, Item.frames, hp]
    | cons b p =>
      have hc : close F i.text = ([.line i.text], .payload p.length []) := by
        simp [close, hann, hp]
      rw [hc, Option.getD_some, scan_payload F p.length [] (b :: p) rfl]
      simp [Item.frames, hp]

/-- Round trip: a rendered stream is scanned back and ends at a frame boundary. -/
theorem scan_items (F : Format β) (is : List (Item β)) (h : ∀ i ∈ is, i.Ok F) :
    scan F (.line []) (is.flatMap (Item.wire F)) = (is.flatMap Item.frames, .line []) := by
  induction is with
  | nil => rfl
  | cons i is ih =>
    rw [List.flatMap_cons, scan_append, scan_item F i (h i (by simp)),
      ih fun j hj => h j (by simp [hj])]
    rfl

theorem parse_items (F : Format β) (is : List (Item β)) (h : ∀ i ∈ is, i.Ok F) :
    parse F (is.flatMap (Item.wire F)) = some (is.flatMap Item.frames) := by
  simp [parse, scan_items F is h]

end Framing
