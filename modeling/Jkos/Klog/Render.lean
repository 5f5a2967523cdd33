import Jkos.Klog.Buffers
import Mathlib.Data.Rat.Floor
import Mathlib.Tactic.Linarith
import Mathlib.Tactic.Positivity

/-!
# What `printf` prints

A format is read as a list of items, each with the argument it takes. The characters of an
item depend on the buffers only where the letter behind the `%` is none of the documented
ones: then `vprintf` prints what `buf` happens to point to.
-/

namespace Jkos.Klog

/-- A part of a format, with its argument. -/
inductive Item (F : Type) where
  | lit (ch : Byte)
  | str (s : Option CString)
  | hex (w : Word)
  | dec (w : Word)
  | udec (w : Word)
  | chr (w : Word)
  | percent
  | float (f : F)
  | pointer (w : Word)
  /-- A letter that is not documented. -/
  | unknown
  /-- The last character of the format is a `%`. -/
  | lone

variable {F : Type}

/-- The item of a conversion, and the arguments behind its own. -/
def Conv.item : Conv → List (Arg F) → Option (Item F × List (Arg F))
  | .s, .str str :: args => some (.str str, args)
  | .x, .word w :: args => some (.hex w, args)
  | .d, .word w :: args => some (.dec w, args)
  | .u, .word w :: args => some (.udec w, args)
  | .c, .word w :: args => some (.chr w, args)
  | .percent, args => some (.percent, args)
  | .f, .float n :: args => some (.float n, args)
  | .p, .word w :: args => some (.pointer w, args)
  | .unknown, args => some (.unknown, args)
  | _, _ => none

/-- The items of a format, if the arguments match it. -/
def items : List Byte → List (Arg F) → Option (List (Item F))
  | [], _ => some []
  | ch :: rest, args =>
      if ch = 0x25 then
        match rest with
        | [] => some [.lone]
        | letter :: rest => do
            let (item, args) ← (Conv.ofLetter letter).item args
            let its ← items rest args
            some (item :: its)
      else (items rest args).map (.lit ch :: ·)

variable (ops : FloatOps F)

/-- The decimal numeral of an `int`. -/
def decimal (n : Int) : List Byte :=
  if n < 0 then 0x2D :: digits 10 n.natAbs else digits 10 n.natAbs

/-- The absolute value that `%f` works on. -/
def FloatOps.abs (f : F) : F := if ops.ltZero f then ops.neg f else f

namespace Item

/-- The text that the item stands for. -/
def text : Item F → List Byte
  | .lit ch => [ch]
  | .str (some s) => s.val
  | .str none => nullText
  | .hex w => digits 16 w.toNat
  | .dec w => decimal w.toInt
  | .udec w => digits 10 w.toNat
  | .chr w => [w.setWidth 8]
  | .percent => [0x25]
  | .float f => (if ops.ltZero f then [0x2D] else []) ++ floatString ops (ops.abs f)
  | .pointer w => pointerText w
  | .unknown | .lone => unknownText

/-- The text as far as it can be passed on: a character of value zero ends its own string. -/
def shown : Item F → List Byte
  | .chr w => if w.setWidth 8 = (0 : Byte) then [] else [w.setWidth 8]
  | it => it.text ops

/-- The conversions of `klog.h` on words and strings. -/
def Documented : Item F → Prop
  | .float _ | .unknown | .lone => False
  | _ => True

/-- A character of value zero. -/
def IsNul : Item F → Prop
  | .chr w => w.setWidth 8 = (0 : Byte)
  | _ => False

end Item

/-! ## What `buf` points to -/

/-- The place that `buf` keeps from one conversion to the next. -/
inductive Stale where
  | unassigned
  /-- The terminator of a string in `buf_mem`. -/
  | bufMem (k : Nat)
  /-- The terminator of another string. -/
  | outside
  deriving DecidableEq

/-- The pointer of the printer is as described. -/
def Stale.Fits (s : Printer) : Stale → Prop
  | .unassigned => s.buf = .unassigned
  | .bufMem k => s.buf = .bufMem k ∧ k < bufMemSize ∧ s.bufMem k = 0
  | .outside => (∃ k, s.buf = .ret k ∧ k < retSize ∧ s.ret k = 0) ∨ s.buf = .text []

/-- The characters of an item and the place of `buf` after it, or `none` where the run ends. -/
def Item.run (st : Stale) (it : Item F) : Option (List Byte × Stale) :=
  match it with
  | .lit ch => some ([ch], st)
  | .str (some _) | .hex _ | .dec _ | .udec _ => some (it.shown ops, .outside)
  | .str none | .chr _ | .percent | .pointer _ =>
      some (it.shown ops, .bufMem (it.shown ops).length)
  | .float f =>
      if FewDigits ops (ops.abs f) then
        some (it.shown ops, .bufMem (floatString ops (ops.abs f)).length)
      else none
  | .unknown =>
      match st with
      | .unassigned => none
      | .bufMem k => some (unknownText.drop k, .bufMem (max k unknownText.length))
      | .outside => some ([], .outside)
  | .lone => none

/-- The characters of a list of items. -/
def simulate : Stale → List (Item F) → Option (List Byte)
  | _, [] => some []
  | st, it :: its => do
      let (str, st) ← it.run ops st
      let rest ← simulate st its
      some (str ++ rest)

/-! ## Conversions -/

variable {s : Printer} {st : Stale} {str : List Byte} {args args' : List (Arg F)}

theorem flush_bufMem {k : Nat} (hbuf : s.buf = .bufMem k)
    (h : Terminated bufMemSize s.bufMem k str) :
    ∃ s', s.flush = .ok s' ∧ s'.out = s.out ++ str ∧ (Stale.bufMem (k + str.length)).Fits s' := by
  refine ⟨{ s with buf := .bufMem (k + str.length), out := s.out ++ str }, ?_, rfl, rfl, h.lt,
    h.zero⟩
  rw [Printer.flush, hbuf]
  simp only [h.scan]
  rfl

theorem flush_ret (hbuf : s.buf = .ret 0) (h : Terminated retSize s.ret 0 str) :
    ∃ s', s.flush = .ok s' ∧ s'.out = s.out ++ str ∧ Stale.outside.Fits s' := by
  refine ⟨{ s with buf := .ret (0 + str.length), out := s.out ++ str }, ?_, rfl,
    .inl ⟨0 + str.length, rfl, h.lt, h.zero⟩⟩
  rw [Printer.flush, hbuf]
  simp only [h.scan]
  rfl

theorem Terminated.drop {size k : Nat} {buf : Nat → Byte} (h : Terminated size buf 0 str)
    (hk : k ≤ str.length) : Terminated size buf k (str.drop k) := by
  have hend : k + (str.drop k).length = 0 + str.length := by
    rw [List.length_drop]
    omega
  refine ⟨fun i hi => ?_, fun hmem => h.zero_notMem (List.mem_of_mem_drop hmem), ?_, ?_⟩
  · rw [List.length_drop] at hi
    rw [List.getElem_drop, ← h.stored (k + i) (by omega), Nat.zero_add]
  · rw [hend]
    exact h.zero
  · rw [hend]
    exact h.lt

/-- A number is put into the buffer of `u2s` and printed. -/
theorem number_flush {n base : Word} (s : Printer) (hbase : base = 10 ∨ base = 16) :
    ∃ s₁ s', s.number n base = .ok s₁ ∧ s₁.flush = .ok s' ∧
      s'.out = s.out ++ digits base.toNat n.toNat ∧ Stale.outside.Fits s' := by
  have hn := n.isLt
  have hlen : (digits base.toNat n.toNat).length < retSize := by
    obtain rfl | rfl := hbase
    · exact Nat.lt_of_le_of_lt (length_digits (k := 10) (by decide) (by decide)
        (Nat.lt_of_lt_of_le hn (by decide))) (by decide)
    · exact Nat.lt_of_le_of_lt (length_digits (k := 8) (by decide) (by decide)
        (Nat.lt_of_lt_of_le hn (by decide))) (by decide)
  have hrange : 1 < base.toNat ∧ base.toNat ≤ 16 := by
    obtain rfl | rfl := hbase <;> decide
  obtain ⟨ret, hrun, hstr⟩ := u2s_ok (n := n) s.ret hrange.1 hrange.2 hlen
  obtain ⟨s', hflush, hout, hfits⟩ := flush_ret (s := { s with ret := ret, buf := .ret 0 }) rfl hstr
  refine ⟨_, s', ?_, hflush, hout, hfits⟩
  rw [Printer.number, hrun]
  rfl

/-- A string is put into `buf_mem` and printed. -/
theorem useBufMem_flush {bufMem : Nat → Byte} (s : Printer)
    (h : Terminated bufMemSize bufMem 0 str) :
    ∃ s', (s.useBufMem bufMem).flush = .ok s' ∧ s'.out = s.out ++ str ∧
      (Stale.bufMem str.length).Fits s' := by
  obtain ⟨s', hflush, hout, hfits⟩ := flush_bufMem (s := s.useBufMem bufMem) rfl h
  rw [Nat.zero_add] at hfits
  exact ⟨s', hflush, hout, hfits⟩

/-- What a conversion does with the argument that it takes. -/
structure Converts (conv : Conv) (args : List (Arg F)) (s : Printer) (args' : List (Arg F))
    (str : List Byte) (st : Stale) : Prop where
  intro ::
  run : ∃ s₁ s', convert ops conv args s = .ok (s₁, args') ∧ s₁.flush = .ok s' ∧
    s'.out = s.out ++ str ∧ st.Fits s'

theorem convert_dec (s : Printer) (w : Word) (args : List (Arg F)) :
    Converts ops .d (.word w :: args) s args (decimal w.toInt) .outside := by
  constructor
  have hlt := w.isLt
  rw [convert, BitVec.slt, decimal, show (0 : Word).toInt = 0 from rfl]
  by_cases hneg : w.toInt < 0
  · obtain ⟨s₁, s', hrun, hflush, hout, hfits⟩ := number_flush (n := -w) (s.putc 0x2D)
      (.inl (rfl : (10 : Word) = 10))
    have habs : (-w).toNat = w.toInt.natAbs := by
      rw [BitVec.toInt_eq_toNat_cond] at hneg ⊢
      split at hneg
      · omega
      · rw [if_neg ‹_›]
        bv_omega
    rw [habs] at hout
    refine ⟨s₁, s', ?_, hflush, ?_, hfits⟩
    · simp only [hneg, decide_true, ↓reduceIte, hrun]
      rfl
    · rw [hout, if_pos hneg, Printer.putc, List.append_assoc]
      rfl
  · obtain ⟨s₁, s', hrun, hflush, hout, hfits⟩ := number_flush (n := w) s
      (.inl (rfl : (10 : Word) = 10))
    have habs : w.toNat = w.toInt.natAbs := by
      rw [BitVec.toInt_eq_toNat_cond] at hneg ⊢
      split at hneg
      · rw [if_pos ‹_›]
        omega
      · omega
    rw [habs] at hout
    refine ⟨s₁, s', ?_, hflush, ?_, hfits⟩
    · simp only [hneg, decide_false, Bool.false_eq_true, ↓reduceIte, hrun]
      rfl
    · rw [hout, if_neg hneg]
      rfl

theorem convert_chr (s : Printer) (w : Word) (args : List (Arg F)) :
    Converts ops .c (.word w :: args) s args (Item.shown ops (.chr w))
      (.bufMem (Item.shown ops (.chr w)).length) := by
  constructor
  let ch : Byte := w.setWidth 8
  let bufMem := Function.update (Function.update s.bufMem 0 ch) 1 0
  have hrun : convert ops .c (.word w :: args) s = .ok (s.useBufMem bufMem, args) := rfl
  have hstr : Terminated bufMemSize bufMem 0 (Item.shown ops (.chr w)) := by
    by_cases hzero : ch = 0
    · rw [Item.shown, if_pos hzero]
      refine ⟨fun i hi => absurd hi (Nat.not_lt_zero i), List.not_mem_nil, ?_, by decide⟩
      exact hzero
    · rw [Item.shown, if_neg hzero]
      refine ⟨fun i hi => ?_, ?_, rfl, (by decide : 0 + 1 < bufMemSize)⟩
      · have hi0 : i = 0 := by simpa using hi
        subst hi0
        rfl
      · rw [List.mem_singleton]
        exact fun h => hzero h.symm
  obtain ⟨s', hflush, hout, hfits⟩ := useBufMem_flush s hstr
  exact ⟨_, s', hrun, hflush, hout, hfits⟩

/-- A conversion that copies a constant. -/
theorem convert_const {conv : Conv} {args : List (Arg F)} (s : Printer)
    (hconv : convert ops conv args s =
      (strcpy bufMemSize s.bufMem str).bind fun bufMem => .ok (s.useBufMem bufMem, args'))
    (hlt : str.length < bufMemSize) (hstr : (0 : Byte) ∉ str) :
    Converts ops conv args s args' str (.bufMem str.length) := by
  constructor
  obtain ⟨bufMem, hcopy, hterm, -⟩ := strcpy_ok bufMemSize s.bufMem str hlt hstr
  obtain ⟨s', hflush, hout, hfits⟩ := useBufMem_flush s hterm
  refine ⟨_, s', ?_, hflush, hout, hfits⟩
  rw [hconv, hcopy]
  rfl

theorem convert_pointer (s : Printer) (w : Word) (args : List (Arg F)) :
    Converts ops .p (.word w :: args) s args (pointerText w)
      (.bufMem (pointerText w).length) := by
  constructor
  obtain ⟨bufMem, hrun, hterm⟩ := pointer_ok w s.bufMem
  obtain ⟨s', hflush, hout, hfits⟩ := useBufMem_flush s hterm
  refine ⟨s.useBufMem bufMem, s', ?_, hflush, hout, hfits⟩
  obtain ⟨buf₁, hcopy, hrun⟩ := exists_of_bind hrun
  obtain ⟨buf₂, hloop, hrun⟩ := exists_of_bind hrun
  simp only [convert, hcopy, hloop, hrun, bind, Except.bind]

theorem ltZero_abs (f : F) : ops.ltZero (ops.abs f) = false := by
  rw [FloatOps.abs]
  split
  · next hneg => exact ops.ltZero_neg f hneg
  · next hpos => exact Bool.not_eq_true _ ▸ hpos

theorem convert_float (s : Printer) (f : F) (args : List (Arg F))
    (hfew : FewDigits ops (ops.abs f)) :
    Converts ops .f (.float f :: args) s args (Item.text ops (.float f))
      (.bufMem (floatString ops (ops.abs f)).length) := by
  constructor
  obtain ⟨bufMem, hrun, hterm⟩ := floatText_ok ops s.bufMem (ltZero_abs ops f) hfew
  cases hneg : ops.ltZero f with
  | true =>
      obtain ⟨s', hflush, hout, hfits⟩ := useBufMem_flush (s.putc 0x2D) hterm
      refine ⟨_, s', ?_, hflush, ?_, hfits⟩
      · rw [FloatOps.abs, if_pos hneg] at hrun
        simp only [convert, hneg, ↓reduceIte, bind, Except.bind]
        rw [show (s.putc 0x2D).bufMem = s.bufMem from rfl, hrun]
      · rw [hout, Item.text, if_pos hneg, Printer.putc, List.append_assoc]
  | false =>
      obtain ⟨s', hflush, hout, hfits⟩ := useBufMem_flush s hterm
      refine ⟨_, s', ?_, hflush, ?_, hfits⟩
      · rw [FloatOps.abs, if_neg (by simp [hneg])] at hrun
        simp only [convert, hneg, Bool.false_eq_true, ↓reduceIte, bind, Except.bind, hrun]
      · rw [hout, Item.text, if_neg (by simp [hneg])]
        rfl

/-- Behind an undocumented letter `buf` keeps its place, and `buf_mem` does not. -/
theorem convert_unknown {k : Nat} (s : Printer) (args : List (Arg F))
    (hfits : (Stale.bufMem k).Fits s) :
    Converts ops .unknown args s args (unknownText.drop k)
      (.bufMem (max k unknownText.length)) := by
  constructor
  obtain ⟨hbuf, hk, hzero⟩ := hfits
  obtain ⟨bufMem, hcopy, hterm, hrest⟩ := strcpy_ok bufMemSize s.bufMem unknownText
    (by decide) (by decide)
  have hrun : convert ops .unknown args s = .ok ({ s with bufMem := bufMem }, args) := by
    simp only [convert, hcopy, bind, Except.bind]
  have htail : Terminated bufMemSize bufMem k (unknownText.drop k) := by
    by_cases hle : k ≤ unknownText.length
    · exact hterm.drop hle
    · rw [List.drop_of_length_le (by omega)]
      refine ⟨fun i hi => absurd hi (Nat.not_lt_zero i), List.not_mem_nil, ?_, hk⟩
      exact (hrest k (by omega)).trans hzero
  obtain ⟨s', hflush, hout, hfits'⟩ := flush_bufMem (s := { s with bufMem := bufMem }) hbuf htail
  have hplace : k + (unknownText.drop k).length = max k unknownText.length := by
    rw [List.length_drop]
    omega
  rw [hplace] at hfits'
  exact ⟨_, s', hrun, hflush, hout, hfits'⟩

theorem convert_unknown_outside (s : Printer) (args : List (Arg F))
    (hfits : Stale.outside.Fits s) :
    Converts ops .unknown args s args [] .outside := by
  constructor
  obtain ⟨bufMem, hcopy, -, -⟩ := strcpy_ok bufMemSize s.bufMem unknownText
    (by decide) (by decide)
  have hrun : convert ops .unknown args s = .ok ({ s with bufMem := bufMem }, args) := by
    simp only [convert, hcopy, bind, Except.bind]
  obtain ⟨k, hbuf, hk, hzero⟩ | hbuf := hfits
  · have hterm : Terminated retSize s.ret k [] :=
      ⟨fun i hi => absurd hi (Nat.not_lt_zero i), List.not_mem_nil, hzero, hk⟩
    refine ⟨_, { s with bufMem := bufMem, out := s.out ++ [] }, hrun, ?_, rfl,
      .inl ⟨k, hbuf, hk, hzero⟩⟩
    simp only [Printer.flush, hbuf, hterm.scan, bind, Except.bind, List.length_nil, Nat.add_zero]
  · refine ⟨_, { s with bufMem := bufMem, out := s.out ++ [] }, hrun, ?_, rfl, .inr hbuf⟩
    simp only [Printer.flush, hbuf]

/-- One conversion prints its item. -/
theorem convert_some {conv : Conv} {it : Item F} {st' : Stale}
    (hitem : conv.item args = some (it, args')) (hfits : st.Fits s)
    (hrun : it.run ops st = some (str, st')) : Converts ops conv args s args' str st' := by
  unfold Conv.item at hitem
  split at hitem
  · next text args =>
      cases hitem
      cases text with
      | none =>
          cases hrun
          change Converts ops _ _ s _ nullText (.bufMem nullText.length)
          exact convert_const ops s rfl (by decide) (by decide)
      | some text =>
          cases hrun
          exact ⟨{ s with buf := .text text.val }, _, rfl, rfl, rfl, .inr rfl⟩
  · next w args =>
      cases hitem
      cases hrun
      obtain ⟨s₁, s', hnumber, hflush, hout, hfits'⟩ := number_flush (n := w) s
        (.inr (rfl : (16 : Word) = 16))
      exact ⟨s₁, s', by simp only [convert, hnumber, bind, Except.bind], hflush, hout, hfits'⟩
  · next w args =>
      cases hitem
      cases hrun
      exact convert_dec ops s w _
  · next w args =>
      cases hitem
      cases hrun
      obtain ⟨s₁, s', hnumber, hflush, hout, hfits'⟩ := number_flush (n := w) s
        (.inl (rfl : (10 : Word) = 10))
      exact ⟨s₁, s', by simp only [convert, hnumber, bind, Except.bind], hflush, hout, hfits'⟩
  · next w args =>
      cases hitem
      cases hrun
      exact convert_chr ops s w _
  · cases hitem
    cases hrun
    change Converts ops _ _ s _ [0x25] (.bufMem [(0x25 : Byte)].length)
    exact convert_const ops s rfl (by decide) (by decide)
  · next f args =>
      cases hitem
      simp only [Item.run, Option.ite_none_right_eq_some] at hrun
      obtain ⟨hfew, hrun⟩ := hrun
      cases hrun
      exact convert_float ops s f _ hfew
  · next w args =>
      cases hitem
      cases hrun
      exact convert_pointer ops s w _
  · cases hitem
    cases st with
    | unassigned => cases hrun
    | bufMem k =>
        cases hrun
        exact convert_unknown ops s args hfits
    | outside =>
        cases hrun
        exact convert_unknown_outside ops s args hfits
  · cases hitem

/-- Where an item has no characters the run ends. -/
theorem convert_none {conv : Conv} {it : Item F} (hitem : conv.item args = some (it, args'))
    (hfits : st.Fits s) (hrun : it.run ops st = none) (s₁ s' : Printer) (args₁ : List (Arg F))
    (hconv : convert ops conv args s = .ok (s₁, args₁)) : s₁.flush ≠ .ok s' := by
  unfold Conv.item at hitem
  split at hitem
  · next text args =>
      cases hitem
      cases text <;> cases hrun
  · cases hitem
    cases hrun
  · cases hitem
    cases hrun
  · cases hitem
    cases hrun
  · cases hitem
    cases hrun
  · cases hitem
    cases hrun
  · next f args =>
      cases hitem
      simp only [Item.run, ite_eq_right_iff, reduceCtorEq, imp_false] at hrun
      -- the digits of the number do not fit
      exfalso
      apply hrun
      simp only [convert] at hconv
      obtain ⟨bufMem, htext, -⟩ := exists_of_bind hconv
      cases hneg : ops.ltZero f with
      | true =>
          simp only [hneg, ↓reduceIte] at htext
          rw [FloatOps.abs, if_pos hneg]
          exact fewDigits_of_floatText ops htext
      | false =>
          simp only [hneg, Bool.false_eq_true, ↓reduceIte] at htext
          rw [FloatOps.abs, if_neg (by simp [hneg])]
          exact fewDigits_of_floatText ops htext
  · cases hitem
    cases hrun
  · cases hitem
    cases st with
    | unassigned =>
        have hbuf : s.buf = .unassigned := hfits
        obtain ⟨bufMem, -, hok⟩ := exists_of_bind hconv
        cases hok
        simp [Printer.flush, hbuf]
    | bufMem k => cases hrun
    | outside => cases hrun
  · cases hitem

/-- Exact arithmetic, as an example of the operations. -/
def exactOps : FloatOps ℚ where
  ltZero f := f < 0
  neg f := -f
  ltOne f := f < 1
  geOne f := 1 ≤ f
  div10 f := f / 10
  mul10 f := f * 10
  digit f := BitVec.ofInt 8 (⌊Int.fract f * 10⌋ + 0x30)
  ltZero_neg f h := by
    simp only [decide_eq_true_eq, decide_eq_false_iff_not, not_lt] at *
    linarith
  ltZero_div10 f h := by
    simp only [decide_eq_false_iff_not, not_lt] at *
    positivity
  ltZero_mul10 f h := by
    simp only [decide_eq_false_iff_not, not_lt] at *
    positivity
  digit_ne_zero f _ := by
    have hnonneg : 0 ≤ Int.fract f * 10 := mul_nonneg (Int.fract_nonneg f) (by norm_num)
    have hlt : Int.fract f * 10 < 10 := by
      have := Int.fract_lt_one f
      linarith
    have hdigit : 0 ≤ ⌊Int.fract f * 10⌋ := Int.floor_nonneg.mpr hnonneg
    have hdigit' : ⌊Int.fract f * 10⌋ < 10 := Int.floor_lt.mpr (by exact_mod_cast hlt)
    have hall : ∀ i : Fin 10, BitVec.ofInt 8 ((i.val : Int) + 0x30) ≠ 0 := by decide
    have hval := hall ⟨⌊Int.fract f * 10⌋.toNat, by omega⟩
    rwa [Int.toNat_of_nonneg hdigit] at hval

/-! ## Formats -/

/-- The run prints the characters, or ends before the format does. -/
def Prints (fmt : List Byte) (args : List (Arg F)) (s : Printer) : Option (List Byte) → Prop
  | some str => ∃ s', vprintf ops (fmt ++ [0]) args s = .ok s' ∧ s'.out = s.out ++ str
  | none => ∀ s', vprintf ops (fmt ++ [0]) args s ≠ .ok s'

/-- The first item is printed, and then the others. -/
theorem Prints.cons {fmt rest : List Byte} {s₁ : Printer} {r : Option (List Byte)}
    (h : Prints ops rest args' s₁ r) (hout : s₁.out = s.out ++ str)
    (hstep : vprintf ops (fmt ++ [0]) args s = vprintf ops (rest ++ [0]) args' s₁) :
    Prints ops fmt args s (r.map (str ++ ·)) := by
  cases r with
  | none =>
      intro s' hok
      exact h s' (hstep ▸ hok)
  | some tail =>
      obtain ⟨s', hok, hout'⟩ := h
      refine ⟨s', hstep.trans hok, ?_⟩
      rw [hout', hout, List.append_assoc]

theorem simulate_cons {it : Item F} {st' : Stale} (h : it.run ops st = some (str, st'))
    (its : List (Item F)) :
    simulate ops st (it :: its) = (simulate ops st' its).map (str ++ ·) := by
  rw [simulate, h, Option.bind_eq_bind, Option.bind_some]
  change (simulate ops st' its).bind (fun rest => some (str ++ rest)) = _
  cases simulate ops st' its <;> rfl

/-- A run over a format prints its items one after the other. -/
theorem vprintf_simulate {fmt : List Byte} {its : List (Item F)} (hfmt : (0 : Byte) ∉ fmt)
    (hitems : items fmt args = some its) (hfits : st.Fits s) :
    Prints ops fmt args s (simulate ops st its) := by
  fun_induction items fmt args generalizing s st its with
  | case1 args =>
      cases hitems
      exact ⟨s, rfl, (List.append_nil _).symm⟩
  | case2 args =>
      cases hitems
      intro s' h
      obtain ⟨⟨s₁, args₁⟩, -, h⟩ := exists_of_bind h
      obtain ⟨s₂, -, h⟩ := exists_of_bind h
      cases h
  | case3 args letter rest ih =>
      obtain ⟨⟨it, args'⟩, hitem, htail⟩ := Option.bind_eq_some_iff.mp hitems
      obtain ⟨its', hits, heq⟩ := Option.bind_eq_some_iff.mp htail
      cases heq
      have hrest : (0 : Byte) ∉ rest := fun h =>
        hfmt (List.mem_cons_of_mem _ (List.mem_cons_of_mem _ h))
      have hvprintf : vprintf ops (0x25 :: letter :: rest ++ [0]) args s = (do
          let r ← convert ops (.ofLetter letter) args s
          let s ← r.1.flush
          vprintf ops (rest ++ [0]) r.2 s) := rfl
      cases hone : it.run ops st with
      | none =>
          have hnone : simulate ops st (it :: its') = none := by
            rw [simulate, hone]
            rfl
          rw [hnone]
          intro s' h
          rw [hvprintf] at h
          obtain ⟨⟨s₁, args₁⟩, hconv, h⟩ := exists_of_bind h
          obtain ⟨s₂, hflush, -⟩ := exists_of_bind h
          exact convert_none ops hitem hfits hone s₁ s₂ args₁ hconv hflush
      | some r =>
          obtain ⟨str, st'⟩ := r
          obtain ⟨s₁, s₂, hconv, hflush, hout, hfits'⟩ := (convert_some ops hitem hfits hone).run
          have hstep : vprintf ops (0x25 :: letter :: rest ++ [0]) args s =
              vprintf ops (rest ++ [0]) args' s₂ := by
            rw [hvprintf]
            simp only [hconv, hflush, bind, Except.bind]
          rw [simulate_cons ops hone]
          exact (ih args' hrest hits hfits').cons ops hout hstep
  | case4 ch rest args hch ih =>
      obtain ⟨its', hits, rfl⟩ := Option.map_eq_some_iff.mp hitems
      have hzero : ch ≠ 0 := fun h => hfmt (h ▸ List.mem_cons_self)
      have hrest : (0 : Byte) ∉ rest := fun h => hfmt (List.mem_cons_of_mem _ h)
      have hstep : vprintf ops (ch :: rest ++ [0]) args s =
          vprintf ops (rest ++ [0]) args (s.putc ch) := by
        rw [List.cons_append, vprintf.eq_def]
        simp only [hzero, hch, ↓reduceIte]
      have hfits' : st.Fits (s.putc ch) := by
        cases st <;> exact hfits
      have hone : (Item.lit ch : Item F).run ops st = some ([ch], st) := rfl
      rw [simulate_cons ops hone]
      exact (ih hrest hits hfits').cons ops rfl hstep

/-- A call of `printf`: `buf` has no value yet, and the static buffers have any. -/
def printf (fmt : CString) (args : List (Arg F)) (bufMem ret : Nat → Byte) :
    Except PrintFault Printer :=
  vprintf ops (fmt.val ++ [0]) args ⟨bufMem, ret, .unassigned, []⟩

/-- The call returns, and these are the characters that it passed to `putc`. -/
def PrintsText (fmt : CString) (args : List (Arg F)) (bufMem ret : Nat → Byte)
    (str : List Byte) : Prop :=
  ∃ s, printf ops fmt args bufMem ret = .ok s ∧ s.out = str

theorem printsText_iff {fmt : CString} {its : List (Item F)}
    (hitems : items fmt.val args = some its) (bufMem ret : Nat → Byte) (str : List Byte) :
    PrintsText ops fmt args bufMem ret str ↔ simulate ops .unassigned its = some str := by
  have hfits : Stale.unassigned.Fits ⟨bufMem, ret, .unassigned, []⟩ := rfl
  have hrun := vprintf_simulate ops fmt.property hitems hfits
  cases hsim : simulate ops .unassigned its with
  | none =>
      rw [hsim] at hrun
      constructor
      · intro ⟨s, hok, _⟩
        exact absurd hok (hrun s)
      · intro h
        cases h
  | some tail =>
      rw [hsim] at hrun
      obtain ⟨s, hok, hout⟩ := hrun
      constructor
      · intro ⟨s', hok', hout'⟩
        cases hok.symm.trans hok'
        rw [← hout', hout]
        rfl
      · intro h
        cases h
        exact ⟨s, hok, hout⟩

/-! ## Documented conversions -/

variable {its : List (Item F)}

theorem Item.run_documented {it : Item F} (h : it.Documented) (st : Stale) :
    ∃ st', it.run ops st = some (it.shown ops, st') := by
  cases it with
  | str text => cases text <;> exact ⟨_, rfl⟩
  | float f => exact h.elim
  | unknown => exact h.elim
  | lone => exact h.elim
  | _ => exact ⟨_, rfl⟩

theorem simulate_documented (hdoc : ∀ it ∈ its, it.Documented) (st : Stale) :
    simulate ops st its = some (its.flatMap (Item.shown ops)) := by
  induction its generalizing st with
  | nil => rfl
  | cons it its ih =>
      obtain ⟨st', hone⟩ := Item.run_documented ops (hdoc it List.mem_cons_self) st
      rw [simulate_cons ops hone, ih fun it h => hdoc it (List.mem_cons_of_mem _ h)]
      rfl

theorem Item.shown_of_not_isNul {it : Item F} (h : ¬ it.IsNul) : it.shown ops = it.text ops := by
  cases it with
  | chr w => exact if_neg h
  | _ => rfl

theorem Item.length_shown_of_isNul {it : Item F} (h : it.IsNul) :
    (it.shown ops).length + 1 = (it.text ops).length := by
  cases it with
  | chr w =>
      have hzero : w.setWidth 8 = (0 : Byte) := h
      rw [shown, if_pos hzero]
      rfl
  | _ => exact h.elim

theorem Item.length_shown_le (it : Item F) : (it.shown ops).length ≤ (it.text ops).length := by
  by_cases h : it.IsNul
  · have := length_shown_of_isNul ops h
    omega
  · rw [shown_of_not_isNul ops h]

theorem length_flatMap_shown_le :
    (its.flatMap (Item.shown ops)).length ≤ (its.flatMap (Item.text ops)).length := by
  induction its with
  | nil => exact Nat.le_refl 0
  | cons it its ih =>
      have hle := it.length_shown_le ops
      rw [List.flatMap_cons, List.flatMap_cons, List.length_append, List.length_append]
      omega

/-- Only a character of value zero is missing. -/
theorem flatMap_shown_eq_iff :
    its.flatMap (Item.shown ops) = its.flatMap (Item.text ops) ↔ ∀ it ∈ its, ¬ it.IsNul := by
  induction its with
  | nil => simp
  | cons it its ih =>
      rw [List.flatMap_cons, List.flatMap_cons, List.forall_mem_cons, ← ih]
      by_cases h : it.IsNul
      · simp only [h, not_true_eq_false, false_and, iff_false]
        intro heq
        have hlen := congrArg List.length heq
        have hone := it.length_shown_of_isNul ops h
        have hrest : (its.flatMap (Item.shown ops)).length ≤
            (its.flatMap (Item.text ops)).length := length_flatMap_shown_le ops
        rw [List.length_append, List.length_append] at hlen
        omega
      · rw [it.shown_of_not_isNul ops h, List.append_cancel_left_eq]
        simp [h]

/-- With documented conversions `printf` returns from every call, and what it passes on is the
text of the items unless one of them is a character of value zero. -/
theorem printf_documented_iff (fmt : CString) (its : List (Item F))
    (hitems : items fmt.val args = some its)
    (hdoc : ∀ it ∈ its, it.Documented) (bufMem ret : Nat → Byte) :
    PrintsText ops fmt args bufMem ret (its.flatMap (Item.text ops)) ↔
      ∀ it ∈ its, ¬ it.IsNul := by
  rw [printsText_iff ops hitems, simulate_documented ops hdoc, Option.some_inj]
  exact flatMap_shown_eq_iff ops

/-- `%d` of the least number, and `%s` of a null pointer. -/
theorem printf_documented_iff_min :
    PrintsText exactOps ⟨[0x25, 0x64, 0x25, 0x73], by decide⟩ [.word 0x80000000, .str none]
      (fun _ => 0) (fun _ => 0)
      ([.dec 0x80000000, .str none].flatMap (Item.text exactOps)) :=
  (printf_documented_iff exactOps ⟨[0x25, 0x64, 0x25, 0x73], by decide⟩
    [.dec 0x80000000, .str none] rfl (by simp [Item.Documented]) _ _).mpr (by simp [Item.IsNul])

/-- `%c` of zero. -/
theorem printf_nul_char :
    ¬ ∀ (fmt : CString) (args : List (Arg ℚ)) (its : List (Item ℚ)),
      items fmt.val args = some its → (∀ it ∈ its, it.Documented) → ∀ bufMem ret,
        PrintsText exactOps fmt args bufMem ret (its.flatMap (Item.text exactOps)) := by
  intro h
  have htext := h ⟨[0x25, 0x63], by decide⟩ [.word 0] [.chr 0] rfl (by simp [Item.Documented])
    (fun _ => 0) (fun _ => 0)
  rw [printsText_iff exactOps rfl] at htext
  cases htext

/-! ## Other letters -/

/-- The run over the items stays defined and prints `(%?)` for each letter that is not
documented. The flag says that the conversion before was a character of value zero, which
leaves `buf` at the beginning of `buf_mem`. -/
def Sane : Bool → List (Item F) → Prop
  | _, [] => True
  | blank, .lit _ :: its => Sane blank its
  | _, .chr w :: its => Sane (w.setWidth 8 = (0 : Byte)) its
  | _, .float f :: its => FewDigits ops (ops.abs f) ∧ Sane false its
  | blank, .unknown :: its => blank = true ∧ Sane false its
  | _, .lone :: _ => False
  | _, _ :: its => Sane false its

theorem Item.length_run_le {it : Item F} {st' : Stale} (h : it.run ops st = some (str, st')) :
    str.length ≤ (it.shown ops).length := by
  cases it with
  | str text =>
      cases text <;> cases h <;> exact Nat.le_refl _
  | float f =>
      simp only [run, Option.ite_none_right_eq_some] at h
      cases h.2
      exact Nat.le_refl _
  | unknown =>
      cases st with
      | unassigned => cases h
      | bufMem k =>
          cases h
          rw [List.length_drop]
          exact Nat.sub_le _ _
      | outside =>
          cases h
          exact Nat.zero_le _
  | lone => cases h
  | _ =>
      cases h
      exact Nat.le_refl _

theorem length_simulate_le (h : simulate ops st its = some str) :
    str.length ≤ (its.flatMap (Item.shown ops)).length := by
  induction its generalizing st str with
  | nil =>
      cases h
      exact Nat.le_refl 0
  | cons it its ih =>
      cases hone : it.run ops st with
      | none =>
          rw [simulate, hone] at h
          cases h
      | some r =>
          obtain ⟨first, st'⟩ := r
          rw [simulate_cons ops hone] at h
          obtain ⟨tail, htail, rfl⟩ := Option.map_eq_some_iff.mp h
          have hle := ih htail
          have hfirst := Item.length_run_le ops hone
          rw [List.flatMap_cons, List.length_append, List.length_append]
          omega

theorem simulate_cons_iff {it : Item F} {st' : Stale}
    (h : it.run ops st = some (it.shown ops, st')) :
    simulate ops st (it :: its) = some ((it :: its).flatMap (Item.shown ops)) ↔
      simulate ops st' its = some (its.flatMap (Item.shown ops)) := by
  rw [simulate_cons ops h, List.flatMap_cons, Option.map_eq_some_iff]
  constructor
  · intro ⟨tail, htail, heq⟩
    rw [htail, List.append_cancel_left heq]
  · intro htail
    exact ⟨_, htail, rfl⟩

/-- An undocumented letter prints its text only from the beginning of `buf_mem`. -/
theorem simulate_unknown_iff :
    simulate ops st (.unknown :: its) = some (((.unknown :: its).flatMap (Item.shown ops))) ↔
      st = .bufMem 0 ∧ simulate ops (.bufMem 4) its = some (its.flatMap (Item.shown ops)) := by
  cases st with
  | unassigned =>
      simp only [reduceCtorEq, false_and, iff_false]
      intro h
      cases h
  | outside =>
      simp only [reduceCtorEq, false_and, iff_false]
      intro h
      rw [simulate_cons ops rfl] at h
      obtain ⟨tail, htail, heq⟩ := Option.map_eq_some_iff.mp h
      have hle := length_simulate_le ops htail
      have hlen := congrArg List.length heq
      rw [List.flatMap_cons, List.length_append, List.length_append] at hlen
      have hfour : ((Item.unknown : Item F).shown ops).length = 4 := rfl
      simp only [List.length_nil] at hlen
      omega
  | bufMem k =>
      by_cases hk : k = 0
      · subst hk
        simp only [true_and]
        exact simulate_cons_iff ops rfl
      · simp only [Stale.bufMem.injEq, hk, false_and, iff_false]
        intro h
        rw [simulate_cons ops rfl] at h
        obtain ⟨tail, htail, heq⟩ := Option.map_eq_some_iff.mp h
        have hle := length_simulate_le ops htail
        have hlen := congrArg List.length heq
        rw [List.flatMap_cons, List.length_append, List.length_append, List.length_drop] at hlen
        have hfour : ((Item.unknown : Item F).shown ops).length = 4 := rfl
        have hfour' : unknownText.length = 4 := rfl
        omega

theorem simulate_eq_iff :
    simulate ops st its = some (its.flatMap (Item.shown ops)) ↔
      Sane ops (st = .bufMem 0) its := by
  induction its generalizing st with
  | nil => exact ⟨fun _ => trivial, fun _ => rfl⟩
  | cons it its ih =>
      cases it with
      | lit ch => exact (simulate_cons_iff ops rfl).trans ih
      | str text => cases text <;> exact (simulate_cons_iff ops rfl).trans ih
      | hex w => exact (simulate_cons_iff ops rfl).trans ih
      | dec w => exact (simulate_cons_iff ops rfl).trans ih
      | udec w => exact (simulate_cons_iff ops rfl).trans ih
      | percent => exact (simulate_cons_iff ops rfl).trans ih
      | pointer w =>
          apply (simulate_cons_iff ops rfl).trans
          have hlen : ((Item.pointer w).shown ops).length = 11 := length_pointerText w
          rw [ih, hlen]
          rfl
      | chr w =>
          apply (simulate_cons_iff ops rfl).trans
          rw [ih, Sane, Item.shown]
          by_cases hzero : w.setWidth 8 = (0 : Byte)
          · simp [hzero]
          · simp
      | float f =>
          rw [Sane]
          by_cases hfew : FewDigits ops (ops.abs f)
          · have hrun : (Item.float f).run ops st = some ((Item.float f).shown ops,
                .bufMem (floatString ops (ops.abs f)).length) := if_pos hfew
            apply (simulate_cons_iff ops hrun).trans
            have hlen : (floatString ops (ops.abs f)).length ≠ 0 := by
              simp [floatString]
            rw [ih]
            simp [hfew, hlen]
          · have hrun : (Item.float f).run ops st = none := if_neg hfew
            simp only [hfew, false_and, iff_false]
            rw [simulate, hrun]
            simp
      | unknown =>
          rw [Sane, simulate_unknown_iff, ih, decide_eq_true_eq]
          rfl
      | lone =>
          simp only [Sane, iff_false]
          intro h
          cases h

/-- For any format with arguments that match it: the call returns, reads no byte behind the
terminator, uses no pointer before it was assigned, and prints `(%?)` for each letter that is
not documented, exactly if the items are sane. -/
theorem printf_sane_iff (fmt : CString) (its : List (Item F))
    (hitems : items fmt.val args = some its) (bufMem ret : Nat → Byte) :
    PrintsText ops fmt args bufMem ret (its.flatMap (Item.shown ops)) ↔ Sane ops false its := by
  rw [printsText_iff ops hitems]
  exact simulate_eq_iff ops

/-- Behind a character of value zero one undocumented letter is printed as it should be. -/
theorem printf_sane_iff_blank :
    PrintsText exactOps ⟨[0x25, 0x63, 0x25, 0x71], by decide⟩ [.word 0] (fun _ => 0)
      (fun _ => 0) unknownText :=
  (printf_sane_iff exactOps ⟨[0x25, 0x63, 0x25, 0x71], by decide⟩
    [.chr 0, .unknown] rfl _ _).mpr (by simp [Sane])

/-- The first conversion of a format is an undocumented letter, and `%` is its last
character. -/
theorem printf_unknown_letter :
    (¬ ∀ (fmt : CString) (args : List (Arg ℚ)) (its : List (Item ℚ)),
      items fmt.val args = some its → ∀ bufMem ret,
        PrintsText exactOps fmt args bufMem ret (its.flatMap (Item.shown exactOps))) ∧
    printf exactOps ⟨[0x25, 0x71], by decide⟩ [] (fun _ => 0) (fun _ => 0) =
      .error .unassigned := by
  constructor
  · intro h
    have htext := h ⟨[0x25, 0x71], by decide⟩ [] [.unknown] rfl (fun _ => 0) (fun _ => 0)
    rw [printsText_iff exactOps rfl] at htext
    cases htext
  · rfl

end Jkos.Klog
