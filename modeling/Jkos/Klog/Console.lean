import Jkos.Word
import Mathlib.Data.List.Basic
import Mathlib.Logic.Function.Basic

/-!
# The console

`putc`, `cls` and the colours of `klog.cpp`, which write to the text memory of the video
adapter, and the terminal that they implement: a document of rows whose last rows are on
the screen. A write outside the text memory, or a use of an empty stack of colours, is
`none`.
-/

namespace Jkos.Klog

/-- `COLOR_STACK_SIZE`. -/
def colorStackSize : Nat := 32

/-- `NCOL`. -/
def ncol : Nat := 80

/-- `NROW`. -/
def nrow : Nat := 25

/-- `Color_t`. -/
inductive Color where
  | black | blue | green | cyan | red | magenta | brown | lightGray | darkGray | lightBlue
  | lightGreen | lightCyan | lightRed | lightMagenta | lightBrown | white
  deriving DecidableEq

/-- The value of the enumerator. -/
def Color.toByte (c : Color) : Byte := BitVec.ofNat 8 c.ctorIdx

/-- `isprint` of `ctype.h`. -/
def isprint (c : Int) : Bool := 0x20 ≤ c && c ≤ 126

/-- `' '`, `'\r'` and `'\n'`. -/
def space : Byte := 0x20

def carriageReturn : Byte := 0x0D

def lineFeed : Byte := 0x0A

/-- What `push_color` stores for a pair of colours. -/
def colorAttribute (monochrome : Bool) (forecolor backcolor : Color) : Byte :=
  if monochrome then (if forecolor = backcolor then 0 else 0x07)
  else backcolor.toByte <<< 4 ||| forecolor.toByte

/-- The static variables of `klog.cpp`. -/
structure Console where
  videomem : Nat → Byte
  videoMonochrome : Bool
  colorStack : Nat → Byte
  ncolorStack : Nat
  xpos : Nat
  ypos : Nat

namespace Console

/-- `color_stack[ncolor_stack - 1]`. -/
def color (c : Console) : Option Byte :=
  if c.ncolorStack = 0 then none else some (c.colorStack (c.ncolorStack - 1))

/-- `videomem[i]`. -/
def peek (c : Console) (i : Nat) : Option Byte :=
  if i < ncol * nrow * 2 then some (c.videomem i) else none

/-- `videomem[i] = b`. -/
def poke (c : Console) (i : Nat) (b : Byte) : Option Console :=
  if i < ncol * nrow * 2 then some { c with videomem := Function.update c.videomem i b } else none

/-- The loops that clear `k` cells from byte `i` on. -/
def clear (c : Console) (i : Nat) : Nat → Option Console
  | 0 => some c
  | k + 1 => do
      let c ← c.poke i space
      let c ← c.poke (i + 1) (← c.color)
      c.clear (i + 2) k

/-- `memcpy` inside the text memory. -/
def copy (c : Console) (dest src : Nat) : Nat → Option Console
  | 0 => some c
  | k + 1 => do
      let c ← c.poke dest (← c.peek src)
      c.copy (dest + 1) (src + 1) k

/-- `Klog::push_color`. -/
def pushColor (c : Console) (forecolor backcolor : Color) : Console :=
  let n := if c.ncolorStack = colorStackSize then c.ncolorStack - 1 else c.ncolorStack
  { c with
    colorStack := Function.update c.colorStack n (colorAttribute c.videoMonochrome forecolor backcolor)
    ncolorStack := n + 1 }

/-- `Klog::pop_color`. -/
def popColor (c : Console) : Console :=
  if c.ncolorStack > 1 then { c with ncolorStack := c.ncolorStack - 1 } else c

/-- `Klog::cls`. -/
def cls (c : Console) : Option Console :=
  { c with xpos := 0, ypos := 0 }.clear 0 (ncol * nrow)

/-- The part of `putc` that shows a character. -/
def draw (c : Console) (ch : Byte) : Option Console := do
  let p := (c.xpos + c.ypos * ncol) * 2
  let c ← c.poke p ch
  let c ← c.poke (p + 1) (← c.color)
  some { c with xpos := c.xpos + 1 }

/-- The part of `putc` that begins a row. -/
def newline (c : Console) : Option Console :=
  let c := { c with xpos := 0, ypos := c.ypos + 1 }
  if c.ypos = nrow then do
    let csize := ncol * 2
    let bsize := (nrow - 1) * ncol * 2
    let c ← c.copy 0 csize bsize
    let c ← c.clear bsize ncol
    some { c with ypos := nrow - 1 }
  else some c

/-- `putc`. -/
def putc (c : Console) (ch : Byte) : Option Console :=
  if !isprint ch.toInt && ch != carriageReturn && ch != lineFeed then some c
  else if ch = carriageReturn then some { c with xpos := 0 }
  else do
    let c ← if ch ≠ lineFeed then c.draw ch else some c
    if ch = lineFeed ∨ c.xpos = ncol then c.newline else some c

/-- `Klog::puts`, for the bytes before the terminator. `Klog::vprintf` passes its output to
`putc` in the same way. -/
def puts (c : Console) (str : List Byte) : Option Console := str.foldlM putc c

/-- `Klog::init` up to its message. -/
def init (c : Console) (monochrome : Bool) : Option Console :=
  ({ c with videoMonochrome := monochrome }.pushColor .lightGray .black).cls

end Console

/-- A call from the rest of the kernel. -/
inductive ConsoleOp where
  | putc (ch : Byte)
  | puts (str : List Byte)
  | cls
  | pushColor (forecolor backcolor : Color)
  | popColor

def Console.exec (c : Console) : ConsoleOp → Option Console
  | .putc ch => c.putc ch
  | .puts str => c.puts str
  | .cls => c.cls
  | .pushColor forecolor backcolor => some (c.pushColor forecolor backcolor)
  | .popColor => some c.popColor

/-! ## The terminal -/

/-- A character with its colour. -/
abbrev Cell := Byte × Byte

abbrev Row := Fin ncol → Cell

def blankRow (color : Byte) : Row := fun _ => (space, color)

/-- The text since the screen was cleared. -/
structure Document where
  /-- The rows above the current one. -/
  done : List Row
  row : Row
  col : Fin ncol
  clsColor : Byte

namespace Document

def empty (color : Byte) : Document := ⟨[], blankRow color, ⟨0, by decide⟩, color⟩

/-- A row below the others. While the screen is not full its cells are those that `cls` left
there. -/
def newline (doc : Document) (color : Byte) : Document where
  done := doc.done ++ [doc.row]
  row := blankRow (if doc.done.length + 1 < nrow then doc.clsColor else color)
  col := ⟨0, by decide⟩
  clsColor := doc.clsColor

/-- A character in the current row, which is broken after its last column. -/
def draw (doc : Document) (ch color : Byte) : Document :=
  let doc' := { doc with row := Function.update doc.row doc.col (ch, color) }
  if h : doc.col.val + 1 < ncol then { doc' with col := ⟨doc.col.val + 1, h⟩ }
  else doc'.newline color

def putc (doc : Document) (ch color : Byte) : Document :=
  if ch = lineFeed then doc.newline color
  else if ch = carriageReturn then { doc with col := ⟨0, by decide⟩ }
  else if isprint ch.toInt then doc.draw ch color
  else doc

/-- The last rows of the document, above the rows that are still clear. -/
def screen (doc : Document) : List Row :=
  (doc.done ++ doc.row :: List.replicate (nrow - 1 - doc.done.length) (blankRow doc.clsColor)).drop
    (doc.done.length - (nrow - 1))

end Document

/-- A document and the stack of colours, whose top is the colour in force. -/
structure Terminal where
  doc : Document
  monochrome : Bool
  top : Byte
  below : List Byte
  bounded : below.length < colorStackSize

namespace Terminal

/-- The top of a full stack is replaced. -/
def pushColor (t : Terminal) (forecolor backcolor : Color) : Terminal :=
  if h : t.below.length + 1 < colorStackSize then
    { t with
      top := colorAttribute t.monochrome forecolor backcolor
      below := t.top :: t.below
      bounded := h }
  else { t with top := colorAttribute t.monochrome forecolor backcolor }

/-- The last colour stays. -/
def popColor (t : Terminal) : Terminal :=
  match h : t.below with
  | [] => t
  | color :: below =>
      have hbelow : below.length < colorStackSize := by
        have hlt := t.bounded
        rw [h, List.length_cons] at hlt
        exact Nat.lt_of_succ_lt hlt
      { t with top := color, below := below, bounded := hbelow }

def putc (t : Terminal) (ch : Byte) : Terminal := { t with doc := t.doc.putc ch t.top }

def exec (t : Terminal) : ConsoleOp → Terminal
  | .putc ch => t.putc ch
  | .puts str => str.foldl putc t
  | .cls => { t with doc := .empty t.top }
  | .pushColor forecolor backcolor => t.pushColor forecolor backcolor
  | .popColor => t.popColor

/-- The terminal after `Klog::init`. -/
def init (monochrome : Bool) : Terminal :=
  let color := colorAttribute monochrome .lightGray .black
  ⟨.empty color, monochrome, color, [], by decide⟩

end Terminal

/-! ## Loops over the text memory -/

namespace Console

variable {c : Console} {color ch : Byte} {i k r : Nat} {x : Fin ncol}

theorem poke_eq (h : i < ncol * nrow * 2) (b : Byte) :
    c.poke i b = some { c with videomem := Function.update c.videomem i b } := if_pos h

/-- The cells from byte `i` on are clear. -/
theorem clear_eq (hcolor : c.color = some color) (hle : i + 2 * k ≤ ncol * nrow * 2) :
    c.clear i k = some { c with
      videomem := fun j =>
        if i ≤ j ∧ j < i + 2 * k then (if (j - i) % 2 = 0 then space else color)
        else c.videomem j } := by
  induction k generalizing c i with
  | zero =>
      have hnone : ∀ j, ¬ (i ≤ j ∧ j < i + 2 * 0) := fun j => by omega
      simp only [clear, hnone, ↓reduceIte]
  | succ k ih =>
      let c' : Console := { c with
        videomem := Function.update (Function.update c.videomem i space) (i + 1) color }
      have hhead : c.clear i (k + 1) = c'.clear (i + 2) k := by
        let c₁ : Console := { c with videomem := Function.update c.videomem i space }
        have hcolor₁ : c₁.color = some color := hcolor
        rw [clear, poke_eq (by omega), Option.bind_eq_bind, Option.bind_some, hcolor₁,
          Option.bind_eq_bind, Option.bind_some, poke_eq (by omega), Option.bind_some]
      rw [hhead, ih (c := c') hcolor (by omega)]
      congr 2
      funext j
      by_cases hfirst : j = i
      · subst hfirst
        simp [c']
      · by_cases hsecond : j = i + 1
        · subst hsecond
          simp [c', show ¬ (i + 2 ≤ i + 1) by omega, show i + 1 < i + 2 * (k + 1) by omega]
        · have hrange : (i + 2 ≤ j ∧ j < i + 2 + 2 * k) ↔ (i ≤ j ∧ j < i + 2 * (k + 1)) := by
            omega
          have hparity : i + 2 ≤ j → (j - (i + 2)) % 2 = (j - i) % 2 := by
            omega
          simp only [hrange, c', Function.update_of_ne hsecond, Function.update_of_ne hfirst]
          split
          · next hin => rw [hparity (hrange.mpr hin).1]
          · rfl

/-- `memcpy` goes upwards, so a block may be moved down over itself. -/
theorem copy_eq {dest src : Nat} (hlt : dest < src) (hle : src + k ≤ ncol * nrow * 2) :
    c.copy dest src k = some { c with
      videomem := fun j =>
        if dest ≤ j ∧ j < dest + k then c.videomem (j - dest + src) else c.videomem j } := by
  induction k generalizing c dest src with
  | zero =>
      have hnone : ∀ j, ¬ (dest ≤ j ∧ j < dest + 0) := fun j => by omega
      simp only [copy, hnone, ↓reduceIte]
  | succ k ih =>
      have hpeek : c.peek src = some (c.videomem src) := if_pos (by omega)
      rw [copy, hpeek, Option.bind_eq_bind, Option.bind_some, poke_eq (by omega),
        Option.bind_eq_bind, Option.bind_some, ih (by omega) (by omega)]
      congr 2
      funext j
      by_cases hfirst : j = dest
      · subst hfirst
        simp
      · have hrange : (dest + 1 ≤ j ∧ j < dest + 1 + k) ↔ (dest ≤ j ∧ j < dest + (k + 1)) := by
          omega
        simp only [hrange, Function.update_of_ne hfirst]
        split
        · next hin =>
            have hsrc : j - (dest + 1) + (src + 1) = j - dest + src := by omega
            rw [hsrc, Function.update_of_ne (by omega)]
        · rfl

/-- A row on the screen. -/
def rowAt (c : Console) (r : Nat) : Row := fun x =>
  (c.videomem ((x.val + r * ncol) * 2), c.videomem ((x.val + r * ncol) * 2 + 1))

/-- The screen. -/
def rows (c : Console) : List Row := (List.range nrow).map c.rowAt

@[simp] theorem length_rows : c.rows.length = nrow := by
  simp [rows]

theorem getElem_rows (h : r < c.rows.length) : c.rows[r] = c.rowAt r := by
  simp [rows]

/-! ## Steps of the console -/

/-- A character appears in the current row. -/
theorem draw_eq (ch : Byte) (hcolor : c.color = some color) (hx : c.xpos = x.val) (hy : c.ypos < nrow) :
    ∃ c', c.draw ch = some c' ∧
      c'.rows = c.rows.set c.ypos (Function.update (c.rowAt c.ypos) x (ch, color)) ∧
      c' = { c with videomem := c'.videomem, xpos := x.val + 1 } := by
  have hxlt := x.isLt
  have hin : (c.xpos + c.ypos * ncol) * 2 + 1 < ncol * nrow * 2 := by
    simp only [ncol, nrow] at *
    omega
  let p := (c.xpos + c.ypos * ncol) * 2
  let c₁ : Console := { c with videomem := Function.update c.videomem p ch }
  have hcolor₁ : c₁.color = some color := hcolor
  let c' : Console := { c with
    videomem := Function.update c₁.videomem (p + 1) color
    xpos := x.val + 1 }
  refine ⟨c', ?_, ?_, rfl⟩
  · rw [draw, poke_eq (Nat.lt_of_succ_lt hin), Option.bind_eq_bind, Option.bind_some, hcolor₁,
      Option.bind_eq_bind, Option.bind_some, poke_eq hin, Option.bind_some]
    simp only [c', c₁, p, hx]
  · apply List.ext_getElem
    · simp
    · intro r hr _
      rw [length_rows] at hr
      rw [getElem_rows, List.getElem_set]
      -- every cell but one lies apart from the two bytes that are written
      have hother : ∀ z : Fin ncol, r ≠ c.ypos ∨ z ≠ x → c'.rowAt r z = c.rowAt r z := by
        intro z hz
        have hzlt := z.isLt
        have hne : z.val + r * ncol ≠ c.xpos + c.ypos * ncol := by
          rw [hx]
          obtain hz | hz := hz
          · simp only [ncol] at *
            omega
          · have := Fin.val_ne_of_ne hz
            by_cases hrow : r = c.ypos
            · subst hrow
              omega
            · simp only [ncol] at *
              omega
        simp only [rowAt, c', c₁, p]
        rw [Function.update_of_ne (by omega), Function.update_of_ne (by omega),
          Function.update_of_ne (by omega), Function.update_of_ne (by omega)]
      split
      · next hrow =>
          funext z
          by_cases hz : z = x
          · subst hz
            simp [rowAt, c', c₁, p, hx, hrow]
          · rw [Function.update_of_ne hz, hother z (.inr hz), hrow]
      · next hrow =>
          rw [getElem_rows]
          funext z
          exact hother z (.inl (Ne.symm hrow))

/-- Whole rows are cleared. -/
theorem clear_rows {m : Nat} (hcolor : c.color = some color) (hle : r + m ≤ nrow) :
    ∃ vm, c.clear (r * ncol * 2) (m * ncol) = some { c with videomem := vm } ∧
      ∀ q, rowAt { c with videomem := vm } q =
        if r ≤ q ∧ q < r + m then blankRow color else c.rowAt q := by
  have hbound : r * ncol * 2 + 2 * (m * ncol) ≤ ncol * nrow * 2 := by
    simp only [ncol, nrow] at *
    omega
  refine ⟨_, clear_eq hcolor hbound, fun q => ?_⟩
  funext z
  have hz := z.isLt
  have hiff : ∀ b, b < 2 → ((r * ncol * 2 ≤ (z.val + q * ncol) * 2 + b ∧
      (z.val + q * ncol) * 2 + b < r * ncol * 2 + 2 * (m * ncol)) ↔ r ≤ q ∧ q < r + m) := by
    intro b hb
    simp only [ncol] at *
    omega
  have heven : ((z.val + q * ncol) * 2 + 0 - r * ncol * 2) % 2 = 0 := by omega
  simp only [rowAt, hiff 1 (by omega)]
  rw [← Nat.add_zero ((z.val + q * ncol) * 2)]
  simp only [hiff 0 (by omega), heven, ↓reduceIte]
  split
  · next hin =>
      have hodd : ((z.val + q * ncol) * 2 + 0 + 1 - r * ncol * 2) % 2 ≠ 0 := by
        have hle := (hiff 0 (by omega)).mpr hin
        omega
      rw [if_neg hodd, blankRow]
  · rfl

/-- The rows move up by one, and the last one stays as well. -/
theorem copy_rows :
    ∃ vm, c.copy 0 (ncol * 2) ((nrow - 1) * ncol * 2) = some { c with videomem := vm } ∧
      ∀ q, q < nrow → rowAt { c with videomem := vm } q =
        if q + 1 < nrow then c.rowAt (q + 1) else c.rowAt q := by
  refine ⟨_, copy_eq (by decide) (by decide), fun q hq => ?_⟩
  funext z
  have hz := z.isLt
  have hiff : ∀ b, b < 2 → ((0 ≤ (z.val + q * ncol) * 2 + b ∧
      (z.val + q * ncol) * 2 + b < 0 + (nrow - 1) * ncol * 2) ↔ q + 1 < nrow) := by
    intro b hb
    simp only [ncol, nrow] at *
    omega
  have hnext : ∀ b, (z.val + q * ncol) * 2 + b - 0 + ncol * 2 =
      (z.val + (q + 1) * ncol) * 2 + b := by
    intro b
    simp only [ncol]
    omega
  simp only [rowAt, hiff 1 (by omega), hnext]
  rw [← Nat.add_zero ((z.val + q * ncol) * 2)]
  simp only [hiff 0 (by omega), hnext]
  split <;> rfl

/-- The screen is cleared. -/
theorem cls_eq (hcolor : c.color = some color) :
    ∃ c', c.cls = some c' ∧ c'.rows = List.replicate nrow (blankRow color) ∧
      c' = { c with videomem := c'.videomem, xpos := 0, ypos := 0 } := by
  let c₀ : Console := { c with xpos := 0, ypos := 0 }
  obtain ⟨vm, hclear, hrows⟩ := clear_rows (c := c₀) (r := 0) (m := nrow) hcolor (by decide)
  refine ⟨_, hclear, ?_, rfl⟩
  apply List.ext_getElem
  · simp
  · intro r hr _
    rw [length_rows] at hr
    rw [getElem_rows, List.getElem_replicate, hrows, if_pos (by omega)]

/-- On the last row of the screen the rows move up. -/
theorem newline_scroll (hcolor : c.color = some color) (hy : c.ypos + 1 = nrow) :
    ∃ c', c.newline = some c' ∧ c'.rows = c.rows.tail ++ [blankRow color] ∧
      c' = { c with videomem := c'.videomem, xpos := 0 } := by
  let c₀ : Console := { c with xpos := 0, ypos := c.ypos + 1 }
  obtain ⟨vm, hcopy, hmoved⟩ := copy_rows (c := c₀)
  obtain ⟨vm', hclear, hcleared⟩ := clear_rows (c := { c₀ with videomem := vm }) (r := nrow - 1)
    (m := 1) hcolor (by decide)
  rw [Nat.one_mul] at hclear
  refine ⟨{ c with videomem := vm', xpos := 0 }, ?_, ?_, rfl⟩
  · have hypos : c.ypos = nrow - 1 := by omega
    have hlast : c₀.ypos = nrow := hy
    simp only [newline]
    rw [if_pos hlast, hcopy, Option.bind_eq_bind, Option.bind_some, hclear, Option.bind_some,
      ← hypos]
  · apply List.ext_getElem
    · simp
      decide
    · intro r hr _
      rw [length_rows] at hr
      rw [getElem_rows]
      have hrow : rowAt { c with videomem := vm', xpos := 0 } r =
          rowAt { c₀ with videomem := vm' } r := rfl
      rw [hrow, hcleared]
      by_cases hlast : r = nrow - 1
      · subst hlast
        simp
      · have hr' : r + 1 < nrow := by omega
        rw [if_neg (by omega), hmoved r hr, if_pos hr', List.getElem_append_left (by simp; omega),
          List.getElem_tail, getElem_rows]
        rfl

/-- Above the last row the cursor moves down. -/
theorem newline_down (hy : c.ypos + 1 < nrow) :
    c.newline = some { c with xpos := 0, ypos := c.ypos + 1 } := by
  simp only [newline]
  rw [if_neg (Nat.ne_of_lt hy)]

end Console

/-! ## Steps of the document -/

namespace Document

variable {doc : Document}

/-- The row of the screen that the cursor is in. -/
def cursorRow (doc : Document) : Nat := min doc.done.length (nrow - 1)

theorem cursorRow_lt : doc.cursorRow < nrow :=
  Nat.lt_of_le_of_lt (Nat.min_le_right _ _) (by decide)

theorem sub_add_cursorRow (doc : Document) :
    doc.done.length - (nrow - 1) + doc.cursorRow = doc.done.length := by
  simp only [cursorRow]
  omega

theorem screen_cursorRow (doc : Document) : doc.screen[doc.cursorRow]? = some doc.row := by
  rw [screen, List.getElem?_drop, doc.sub_add_cursorRow,
    List.getElem?_append_right (Nat.le_refl _), Nat.sub_self, List.getElem?_cons_zero]

theorem screen_of_row (doc : Document) (row : Row) :
    screen { doc with row := row } = doc.screen.set doc.cursorRow row := by
  simp only [screen]
  rw [List.set_drop, doc.sub_add_cursorRow, List.set_append_right _ _ (Nat.le_refl _), Nat.sub_self,
    List.set_cons_zero]

/-- While the screen is not full, the rows below the document are already there. -/
theorem screen_newline_down (color : Byte) (h : doc.done.length + 1 < nrow) :
    (doc.newline color).screen = doc.screen := by
  have hlen : doc.done.length ≤ nrow - 1 := by omega
  have hcount : nrow - 1 - doc.done.length = nrow - 1 - (doc.done.length + 1) + 1 := by omega
  simp only [newline, screen, h, ↓reduceIte, List.length_append, List.length_cons, List.length_nil]
  rw [Nat.sub_eq_zero_of_le hlen, Nat.sub_eq_zero_of_le (by omega), List.drop_zero, List.drop_zero,
    hcount, List.replicate_succ, List.append_assoc]
  rfl

theorem screen_newline_scroll (color : Byte) (h : nrow ≤ doc.done.length + 1) :
    (doc.newline color).screen = doc.screen.tail ++ [blankRow color] := by
  have hrest : nrow - 1 - doc.done.length = 0 := by omega
  have hrest' : nrow - 1 - (doc.done.length + 1) = 0 := by omega
  simp only [newline, screen, Nat.not_lt.mpr h, ↓reduceIte, List.length_append, List.length_cons,
    List.length_nil, hrest, hrest', List.replicate_zero, Nat.zero_add]
  rw [List.tail_drop, List.drop_append_of_le_length (by simp)]
  congr 2
  omega

end Document

/-! ## The console is the terminal -/

/-- The console shows the terminal. -/
structure Console.Shows (c : Console) (t : Terminal) : Prop where
  rows : c.rows = t.doc.screen
  xpos : c.xpos = t.doc.col.val
  ypos : c.ypos = t.doc.cursorRow
  monochrome : c.videoMonochrome = t.monochrome
  colors : (List.range c.ncolorStack).map c.colorStack = (t.top :: t.below).reverse

namespace Console.Shows

variable {c : Console} {t : Terminal} {ch : Byte}

theorem ncolorStack (h : c.Shows t) : c.ncolorStack = t.below.length + 1 := by
  have hlen := congrArg List.length h.colors
  simpa using hlen

theorem color (h : c.Shows t) : c.color = some t.top := by
  have hcolors := h.colors
  rw [h.ncolorStack, List.range_succ, List.map_append, List.reverse_cons] at hcolors
  have hlast := (List.append_inj' hcolors rfl).2
  rw [Console.color, if_neg (by rw [h.ncolorStack]; omega), h.ncolorStack]
  exact congrArg some (List.singleton_inj.mp hlast)

theorem ypos_lt (h : c.Shows t) : c.ypos < nrow := by
  rw [h.ypos]
  exact Document.cursorRow_lt

/-- The terminal and the console move to another place of another document. -/
theorem move {doc : Document} {vm : Nat → Byte} {x y : Nat} (h : c.Shows t)
    (hrows : Console.rows { c with videomem := vm } = doc.screen) (hx : x = doc.col.val)
    (hy : y = doc.cursorRow) :
    Console.Shows { c with videomem := vm, xpos := x, ypos := y } { t with doc := doc } :=
  ⟨hrows, hx, hy, h.monochrome, h.colors⟩

theorem newline (h : c.Shows t) :
    ∃ c', c.newline = some c' ∧ c'.Shows { t with doc := t.doc.newline t.top } := by
  have hy := h.ypos
  have hcursor : (t.doc.newline t.top).cursorRow = min (t.doc.done.length + 1) (nrow - 1) := by
    simp [Document.cursorRow, Document.newline]
  by_cases hfull : t.doc.done.length + 1 < nrow
  · have hlast : c.ypos + 1 < nrow := by
      rw [hy, Document.cursorRow]
      omega
    refine ⟨_, newline_down hlast, h.move ?_ rfl ?_⟩
    · rw [Document.screen_newline_down _ hfull]
      exact h.rows
    · rw [hcursor, hy, Document.cursorRow]
      omega
  · have hlast : c.ypos + 1 = nrow := by
      rw [hy, Document.cursorRow]
      simp only [nrow] at *
      omega
    obtain ⟨c', hc', hrows, heq⟩ := newline_scroll h.color hlast
    refine ⟨c', hc', ?_⟩
    rw [heq]
    refine h.move ?_ rfl ?_
    · rw [Document.screen_newline_scroll _ (Nat.not_lt.mp hfull), ← h.rows, ← hrows]
      rfl
    · rw [hcursor, hy, Document.cursorRow]
      simp only [nrow] at *
      omega

/-- A printable character, with the line break behind the last column. -/
theorem draw (h : c.Shows t) (hch : ch ≠ lineFeed) :
    ∃ c', (do
        let c ← c.draw ch
        if ch = lineFeed ∨ c.xpos = ncol then c.newline else some c) = some c' ∧
      c'.Shows { t with doc := t.doc.draw ch t.top } := by
  obtain ⟨c₁, hc₁, hrows, heq⟩ := draw_eq ch h.color h.xpos h.ypos_lt
  have hlt : c.ypos < c.rows.length := by
    rw [length_rows]
    exact h.ypos_lt
  have hrow : c.rowAt c.ypos = t.doc.row := by
    have hrow := t.doc.screen_cursorRow
    rw [← h.rows, ← h.ypos, List.getElem?_eq_getElem hlt, getElem_rows hlt] at hrow
    exact Option.some_inj.mp hrow
  let doc : Document := { t.doc with row := Function.update t.doc.row t.doc.col (ch, t.top) }
  have hscreen : c₁.rows = doc.screen := by
    rw [hrows, hrow, h.rows, h.ypos]
    exact (t.doc.screen_of_row _).symm
  have hxpos : c₁.xpos = t.doc.col.val + 1 := by
    rw [heq]
  rw [hc₁, Option.bind_eq_bind, Option.bind_some]
  by_cases hcol : t.doc.col.val + 1 < ncol
  · rw [if_neg (by rw [hxpos]; simp [hch, Nat.ne_of_lt hcol])]
    refine ⟨c₁, rfl, ?_⟩
    rw [heq] at hscreen ⊢
    rw [Document.draw, dif_pos hcol]
    exact h.move hscreen rfl h.ypos
  · have hend : c₁.xpos = ncol := by
      have := t.doc.col.isLt
      omega
    rw [if_pos (.inr hend), Document.draw, dif_neg hcol]
    -- `newline` does not look at the column, so it may as well be the one before
    let c₂ : Console := { c₁ with xpos := t.doc.col.val }
    have hshows : c₂.Shows { t with doc := doc } := by
      simp only [c₂]
      rw [heq] at hscreen ⊢
      exact h.move hscreen rfl h.ypos
    exact hshows.newline

theorem putc (h : c.Shows t) (ch : Byte) : ∃ c', c.putc ch = some c' ∧ c'.Shows (t.putc ch) := by
  rw [Console.putc, Terminal.putc, Document.putc]
  by_cases hline : ch = lineFeed
  · subst hline
    rw [if_neg (by decide), if_neg (by decide), if_pos rfl, if_neg (not_not_intro rfl),
      Option.bind_eq_bind, Option.bind_some]
    simp only [true_or, ↓reduceIte]
    exact h.newline
  · by_cases hreturn : ch = carriageReturn
    · subst hreturn
      rw [if_neg (by decide), if_pos rfl, if_neg (by decide), if_pos rfl]
      exact ⟨_, rfl, h.move h.rows rfl h.ypos⟩
    · rw [if_neg hline, if_neg hreturn, if_neg hreturn]
      cases hprint : isprint ch.toInt with
      | false =>
          rw [if_pos (by simp [hline, hreturn]), if_neg Bool.false_ne_true]
          exact ⟨c, rfl, h⟩
      | true =>
          rw [if_neg (by simp), if_pos rfl, if_pos hline]
          exact h.draw hline

theorem puts (h : c.Shows t) (str : List Byte) :
    ∃ c', c.puts str = some c' ∧ c'.Shows (str.foldl Terminal.putc t) := by
  induction str generalizing c t with
  | nil => exact ⟨c, rfl, h⟩
  | cons ch str ih =>
      obtain ⟨c₁, hc₁, h₁⟩ := h.putc ch
      obtain ⟨c₂, hc₂, h₂⟩ := ih h₁
      refine ⟨c₂, ?_, h₂⟩
      rw [Console.puts, List.foldlM_cons, hc₁, Option.bind_eq_bind, Option.bind_some]
      exact hc₂

theorem cls (h : c.Shows t) :
    ∃ c', c.cls = some c' ∧ c'.Shows { t with doc := .empty t.top } := by
  obtain ⟨c', hc', hrows, heq⟩ := cls_eq h.color
  refine ⟨c', hc', ?_⟩
  rw [heq] at hrows ⊢
  exact h.move hrows rfl rfl

theorem pushColor (h : c.Shows t) (forecolor backcolor : Color) :
    (c.pushColor forecolor backcolor).Shows (t.pushColor forecolor backcolor) := by
  have hn := h.ncolorStack
  have hbounded := t.bounded
  have hcolors := h.colors
  rw [Console.pushColor, Terminal.pushColor, h.monochrome]
  -- the part of the stack below the new colour is as before
  have hkeep : ∀ n b, (List.range n).map (Function.update c.colorStack n b) =
      (List.range n).map c.colorStack := by
    intro n b
    apply List.map_congr_left
    intro i hi
    exact Function.update_of_ne (Nat.ne_of_lt (List.mem_range.mp hi)) _ _
  by_cases hfull : t.below.length + 1 < colorStackSize
  · rw [dif_pos hfull]
    refine ⟨h.rows, h.xpos, h.ypos, rfl, ?_⟩
    simp only [hn, Nat.ne_of_lt hfull, ↓reduceIte]
    rw [List.range_succ, List.map_append, hkeep, ← hn, hcolors, List.reverse_cons]
    simp
  · have hmax : t.below.length + 1 = colorStackSize := by omega
    rw [dif_neg hfull]
    refine ⟨h.rows, h.xpos, h.ypos, rfl, ?_⟩
    rw [hn, List.range_succ, List.map_append, List.reverse_cons] at hcolors
    simp only [hn, hmax, ↓reduceIte]
    rw [← hmax, Nat.add_sub_cancel, List.range_succ, List.map_append, hkeep,
      (List.append_inj' hcolors rfl).1, List.reverse_cons]
    simp

theorem popColor (h : c.Shows t) : c.popColor.Shows t.popColor := by
  obtain ⟨doc, monochrome, top, below, hbounded⟩ := t
  have hn := h.ncolorStack
  cases below with
  | nil =>
      rw [Console.popColor, if_neg (by simp [hn])]
      exact h
  | cons color below =>
      rw [Console.popColor, if_pos (by simp [hn])]
      refine ⟨h.rows, h.xpos, h.ypos, h.monochrome, ?_⟩
      have hcolors := h.colors
      rw [hn, List.range_succ, List.map_append, List.reverse_cons] at hcolors
      simp only [hn, List.length_cons, Nat.add_sub_cancel]
      exact (List.append_inj' hcolors rfl).1

theorem exec (h : c.Shows t) (op : ConsoleOp) :
    ∃ c', c.exec op = some c' ∧ c'.Shows (t.exec op) := by
  cases op with
  | putc ch => exact h.putc ch
  | puts str => exact h.puts str
  | cls => exact h.cls
  | pushColor forecolor backcolor => exact ⟨_, rfl, h.pushColor forecolor backcolor⟩
  | popColor => exact ⟨_, rfl, h.popColor⟩

theorem foldlM (h : c.Shows t) (ops : List ConsoleOp) :
    ∃ c', ops.foldlM Console.exec c = some c' ∧ c'.Shows (ops.foldl Terminal.exec t) := by
  induction ops generalizing c t with
  | nil => exact ⟨c, rfl, h⟩
  | cons op ops ih =>
      obtain ⟨c₁, hc₁, h₁⟩ := h.exec op
      obtain ⟨c₂, hc₂, h₂⟩ := ih h₁
      refine ⟨c₂, ?_, h₂⟩
      rw [List.foldlM_cons, hc₁, Option.bind_eq_bind, Option.bind_some]
      exact hc₂

end Console.Shows

/-- The static variables when the kernel starts, with whatever the screen shows. -/
def Console.boot (videomem : Nat → Byte) : Console := ⟨videomem, false, fun _ => 0, 0, 0, 0⟩

theorem Console.init_shows (videomem : Nat → Byte) (monochrome : Bool) :
    ∃ c, (boot videomem).init monochrome = some c ∧ c.Shows (.init monochrome) := by
  let color := colorAttribute monochrome .lightGray .black
  let c₀ : Console := { boot videomem with videoMonochrome := monochrome }.pushColor .lightGray .black
  have hcolor : c₀.color = some color := rfl
  obtain ⟨c, hc, hrows, heq⟩ := cls_eq hcolor
  refine ⟨c, hc, ?_⟩
  rw [heq] at hrows ⊢
  exact ⟨hrows, rfl, rfl, rfl, rfl⟩

/-- After any calls the screen shows the end of the document, and no byte outside the text
memory was touched. -/
theorem run_shows (videomem : Nat → Byte) (monochrome : Bool) (ops : List ConsoleOp) :
    ∃ c, ((Console.boot videomem).init monochrome).bind (ops.foldlM Console.exec) = some c ∧
      c.Shows (ops.foldl Terminal.exec (.init monochrome)) ∧ c.xpos < ncol ∧ c.ypos < nrow := by
  obtain ⟨c₀, hc₀, h₀⟩ := Console.init_shows videomem monochrome
  obtain ⟨c, hc, h⟩ := h₀.foldlM ops
  refine ⟨c, ?_, h, ?_, h.ypos_lt⟩
  · rw [hc₀]
    exact hc
  · rw [h.xpos]
    exact Fin.isLt _

end Jkos.Klog
