import Jkos.Elf.Segments

/-!
# What the calls make of a byte

The calls of the loader, followed at one address: whether its page has a frame, and what the
byte there is. For the calls of a segment there is a closed form. A part of zeros that begins
behind the first byte of a page and ends in the same page clears the whole page, because the
end of the page is cleared for its first byte and the beginning for its last one.
-/

namespace Jkos.Elf

/-- What is known about a byte. -/
inductive Shown where
  | unknown
  /-- It is what a free frame held when the loader began. -/
  | stale
  | value (v : Byte)

/-- What is known about an address: whether its page has a frame, and what its byte is. -/
structure Content where
  frame : Option Bool
  byte : Shown

namespace Content

/-- `alloc`: a page without a frame gets one with whatever is in it. -/
def alloc (x : Content) : Content :=
  match x.frame with
  | some true => x
  | some false => ⟨some true, .stale⟩
  | none => ⟨some true, .unknown⟩

def write (x : Content) (v : Byte) : Content := { x with byte := .value v }

variable (x : Content) (v w : Byte)

@[simp] theorem frame_alloc : x.alloc.frame = some true := by
  rw [alloc]
  split
  · next h => exact h
  · rfl
  · rfl

variable {x} in
theorem alloc_of_held (h : x.frame = some true) : x.alloc = x := by
  rw [alloc, h]

@[simp] theorem alloc_alloc : x.alloc.alloc = x.alloc := alloc_of_held x.frame_alloc

@[simp] theorem frame_write : (x.write v).frame = x.frame := rfl

@[simp] theorem byte_write : (x.write v).byte = .value v := rfl

@[simp] theorem write_write : (x.write v).write w = x.write w := rfl

@[simp] theorem alloc_alloc_write : (x.alloc.write v).alloc = x.alloc.write v :=
  alloc_of_held x.frame_alloc

end Content

/-- What a call makes of the address `b`. -/
def Call.effect (c : Call) (b : Word) (x : Content) : Content :=
  match c with
  | .allocInterval start stop => if start ≤ b ∧ b < stop then x.alloc else x
  | .alloc addr => if pageOf b = pageOf addr then x.alloc else x
  | .fileRead dest bytes =>
      if (b - dest).toNat < bytes.length then x.write (bytes.getD (b - dest).toNat 0) else x
  | .memset dest cnt => if (b - dest).toNat < cnt.toNat then x.write 0 else x
  | .lazyAllocInterval start stop => if start ≤ b ∧ b < stop then x.write 0 else x

/-- What a list of calls makes of it. -/
def effects (cs : List Call) (b : Word) (x : Content) : Content :=
  cs.foldl (fun x c => c.effect b x) x

@[simp] theorem effects_nil (b : Word) (x : Content) : effects [] b x = x := rfl

@[simp] theorem effects_cons (c : Call) (cs : List Call) (b : Word) (x : Content) :
    effects (c :: cs) b x = effects cs b (c.effect b x) := rfl

theorem effects_append (cs cs' : List Call) (b : Word) (x : Content) :
    effects (cs ++ cs') b x = effects cs' b (effects cs b x) := List.foldl_append

variable {low a b spaceStart spaceEnd : Word}

theorem pageOf_eq_iff : pageOf a = pageOf b ↔ a.toNat / 4096 = b.toNat / 4096 := by
  constructor
  · intro h
    have h := congrArg BitVec.toNat h
    rw [toNat_pageOf, toNat_pageOf] at h
    omega
  · intro h
    apply Word.ext_toNat
    rw [toNat_pageOf, toNat_pageOf, h]

/-- The next page boundary. -/
theorem toNat_alignPage (a : Word) (h : a.toNat < 0xEFC00000) :
    (getAligned a 12).toNat = (a.toNat + 4095) / 4096 * 4096 :=
  toNat_getAligned (by omega)

/-- The addresses of a run of bytes that does not wrap. -/
theorem toNat_sub_lt_iff {dest : Word} {n : Nat} (h : dest.toNat + n ≤ 2 ^ 32) :
    (b - dest).toNat < n ↔ dest.toNat ≤ b.toNat ∧ b.toNat < dest.toNat + n := by
  have hb := b.isLt
  have hdest := dest.isLt
  rw [BitVec.toNat_sub]
  omega

namespace Segment

variable {x : Segment}

/-- The address lies in a page of the segment. -/
def OnPage (x : Segment) (b : Word) : Prop :=
  x.vaddr.toNat / 4096 ≤ b.toNat / 4096 ∧ b.toNat / 4096 * 4096 < x.spaceEnd.toNat

def InData (x : Segment) (b : Word) : Prop :=
  x.vaddr.toNat ≤ b.toNat ∧ b.toNat < x.dataEnd.toNat

/-- Not all of the segment is in the file. -/
def HasZeros (x : Segment) : Prop := x.dataEnd.toNat < x.spaceEnd.toNat

/-- The zeros begin in the page, behind its first byte. -/
def HeadPage (x : Segment) (b : Word) : Prop :=
  x.HasZeros ∧ x.dataEnd.toNat % 4096 ≠ 0 ∧ b.toNat / 4096 = x.dataEnd.toNat / 4096

/-- The zeros end in the page, before its last byte. -/
def TailPage (x : Segment) (b : Word) : Prop :=
  x.HasZeros ∧ x.spaceEnd.toNat % 4096 ≠ 0 ∧ b.toNat / 4096 = x.spaceEnd.toNat / 4096

/-- The pages that get a frame at once. -/
def Grabs (x : Segment) (b : Word) : Prop :=
  (x.data ≠ [] ∧ x.OnPage b) ∨ x.HeadPage b ∨ x.TailPage b

/-- The zeros begin behind the first byte of a page and end in the same page. -/
def Wipes (x : Segment) : Prop :=
  x.HasZeros ∧ x.dataEnd.toNat % 4096 ≠ 0 ∧
    x.dataEnd.toNat / 4096 = x.spaceEnd.toNat / 4096

/-- The bytes that are cleared. -/
def Clears (x : Segment) (b : Word) : Prop :=
  (x.dataEnd.toNat ≤ b.toNat ∧ b.toNat < x.spaceEnd.toNat) ∨
    (x.Wipes ∧ b.toNat / 4096 = x.dataEnd.toNat / 4096)

instance (x : Segment) (b : Word) : Decidable (x.OnPage b) := inferInstanceAs (Decidable (_ ∧ _))

instance (x : Segment) (b : Word) : Decidable (x.InData b) := inferInstanceAs (Decidable (_ ∧ _))

instance (x : Segment) : Decidable x.HasZeros := inferInstanceAs (Decidable (_ < _))

instance (x : Segment) (b : Word) : Decidable (x.HeadPage b) :=
  inferInstanceAs (Decidable (_ ∧ _))

instance (x : Segment) (b : Word) : Decidable (x.TailPage b) :=
  inferInstanceAs (Decidable (_ ∧ _))

instance (x : Segment) (b : Word) : Decidable (x.Grabs b) := inferInstanceAs (Decidable (_ ∨ _))

instance (x : Segment) : Decidable x.Wipes := inferInstanceAs (Decidable (_ ∧ _))

instance (x : Segment) (b : Word) : Decidable (x.Clears b) := inferInstanceAs (Decidable (_ ∨ _))

/-- The byte that the file has for an address. -/
def byteAt (x : Segment) (b : Word) : Byte := x.data.getD (b - x.vaddr).toNat 0

/-- What all calls for a segment make of an address. -/
def effect (x : Segment) (b : Word) (c : Content) : Content :=
  let c := if x.Grabs b then c.alloc else c
  if x.Clears b then c.write 0 else if x.InData b then c.write (x.byteAt b) else c

/-! ## The parts of a segment -/

theorem Fits.dataEnd_le (h : x.Fits low) :
    x.vaddr.toNat ≤ x.dataEnd.toNat ∧ x.dataEnd.toNat ≤ x.spaceEnd.toNat ∧
      x.vaddr.toNat < x.spaceEnd.toNat ∧ x.spaceEnd.toNat < 0xEFC00000 := by
  have hdata := h.data_le
  have hpos := h.pos
  have hend := h.end_lt
  rw [h.toNat_dataEnd, h.toNat_spaceEnd]
  omega

theorem effects_data (h : x.Fits low) (b : Word) (c : Content) :
    effects (dataCalls x) b c =
      let c := if x.data ≠ [] ∧ x.OnPage b then c.alloc else c
      if x.InData b then c.write (x.byteAt b) else c := by
  obtain ⟨-, -, hlt, hheap⟩ := h.dataEnd_le
  have hdata := h.toNat_dataEnd
  have hend := h.toNat_spaceEnd
  by_cases hnil : x.data = []
  · have hin : ¬ x.InData b := by
      rintro ⟨h₁, h₂⟩
      rw [hdata, hnil, List.length_nil] at h₂
      omega
    rw [dataCalls, if_pos hnil]
    simp only [effects_nil, hin, if_false, hnil, ne_eq, not_true_eq_false, false_and]
  · have hpage : (pageOf x.vaddr ≤ b ∧ b < getAligned (x.vaddr + x.memsz) 12) ↔ x.OnPage b := by
      have halign := toNat_alignPage x.spaceEnd (by omega)
      rw [BitVec.le_def, BitVec.lt_def, toNat_pageOf, OnPage]
      change _ ∧ _ < (getAligned x.spaceEnd 12).toNat ↔ _
      rw [halign]
      omega
    have hread : (b - x.vaddr).toNat < x.data.length ↔ x.InData b := by
      rw [toNat_sub_lt_iff (by have := h.data_le; omega), InData, hdata]
    rw [dataCalls, if_neg hnil]
    simp only [effects_cons, effects_nil, Call.effect, hpage, hread, hnil, ne_eq, not_false_eq_true,
      true_and]
    rfl

theorem effects_head (h : x.Fits low) (hzeros : x.HasZeros) (b : Word) (c : Content) :
    effects (headCalls x.dataEnd) b c =
      if x.HeadPage b then
        if x.dataEnd.toNat ≤ b.toNat then c.alloc.write 0 else c.alloc
      else c := by
  obtain ⟨-, hle, -, hheap⟩ := h.dataEnd_le
  have halign := toNat_alignPage x.dataEnd (by omega)
  have hcond : x.dataEnd ≠ getAligned x.dataEnd 12 ↔ x.dataEnd.toNat % 4096 ≠ 0 := by
    rw [ne_eq, ← BitVec.toNat_inj, halign]
    omega
  rw [headCalls]
  by_cases hmod : x.dataEnd.toNat % 4096 ≠ 0
  · have hcnt : (getAligned x.dataEnd 12 - x.dataEnd).toNat =
        (getAligned x.dataEnd 12).toNat - x.dataEnd.toNat := by
      apply BitVec.toNat_sub_of_le
      rw [BitVec.le_def]
      omega
    have hhead : x.HeadPage b ↔ b.toNat / 4096 = x.dataEnd.toNat / 4096 :=
      ⟨fun hh => hh.2.2, fun hh => ⟨hzeros, hmod, hh⟩⟩
    have hrun : (b - x.dataEnd).toNat < (getAligned x.dataEnd 12).toNat - x.dataEnd.toNat ↔
        x.dataEnd.toNat ≤ b.toNat ∧ b.toNat < (getAligned x.dataEnd 12).toNat := by
      rw [toNat_sub_lt_iff (by omega)]
      omega
    rw [if_pos (hcond.mpr hmod)]
    simp only [effects_cons, effects_nil, Call.effect, hcnt, pageOf_eq_iff, hhead, hrun]
    by_cases hpage : b.toNat / 4096 = x.dataEnd.toNat / 4096
    · have hlt : b.toNat < (getAligned x.dataEnd 12).toNat := by omega
      simp only [hpage, if_true, hlt, and_true]
    · have hout : ¬ (x.dataEnd.toNat ≤ b.toNat ∧
          b.toNat < (getAligned x.dataEnd 12).toNat) := by omega
      simp only [hpage, if_false, hout]
  · rw [if_neg (by rwa [hcond]), if_neg fun hh => hmod hh.2.1]
    rfl

theorem effects_tail (h : x.Fits low) (hzeros : x.HasZeros) (b : Word) (c : Content) :
    effects (tailCalls x.spaceEnd) b c =
      if x.TailPage b then
        if b.toNat < x.spaceEnd.toNat then c.alloc.write 0 else c.alloc
      else c := by
  obtain ⟨-, -, -, hheap⟩ := h.dataEnd_le
  have hpage := toNat_pageOf x.spaceEnd
  have hcond : pageOf x.spaceEnd ≠ x.spaceEnd ↔ x.spaceEnd.toNat % 4096 ≠ 0 := by
    rw [ne_eq, ← BitVec.toNat_inj, hpage]
    omega
  rw [tailCalls]
  by_cases hmod : x.spaceEnd.toNat % 4096 ≠ 0
  · have hcnt : (x.spaceEnd - pageOf x.spaceEnd).toNat =
        x.spaceEnd.toNat - (pageOf x.spaceEnd).toNat := by
      apply BitVec.toNat_sub_of_le
      rw [BitVec.le_def]
      omega
    have htail : x.TailPage b ↔ b.toNat / 4096 = x.spaceEnd.toNat / 4096 :=
      ⟨fun hh => hh.2.2, fun hh => ⟨hzeros, hmod, hh⟩⟩
    have hrun : (b - pageOf x.spaceEnd).toNat < x.spaceEnd.toNat - (pageOf x.spaceEnd).toNat ↔
        (pageOf x.spaceEnd).toNat ≤ b.toNat ∧ b.toNat < x.spaceEnd.toNat := by
      rw [toNat_sub_lt_iff (by omega)]
      omega
    have hsame : pageOf b = pageOf (pageOf x.spaceEnd) ↔
        b.toNat / 4096 = x.spaceEnd.toNat / 4096 := by
      rw [pageOf_pageOf, pageOf_eq_iff]
    rw [if_pos (hcond.mpr hmod)]
    simp only [effects_cons, effects_nil, Call.effect, hcnt, hsame, htail, hrun]
    by_cases heq : b.toNat / 4096 = x.spaceEnd.toNat / 4096
    · have hge : (pageOf x.spaceEnd).toNat ≤ b.toNat := by omega
      simp only [heq, if_true, hge, true_and]
    · have hout : ¬ ((pageOf x.spaceEnd).toNat ≤ b.toNat ∧ b.toNat < x.spaceEnd.toNat) := by omega
      simp only [heq, if_false, hout]
  · rw [if_neg (by rwa [hcond]), if_neg fun hh => hmod hh.2.1]
    rfl

theorem effect_lazy (h : x.Fits low) (b : Word) (c : Content) :
    (Call.lazyAllocInterval (getAligned x.dataEnd 12) (pageOf x.spaceEnd)).effect b c =
      if (x.dataEnd.toNat + 4095) / 4096 * 4096 ≤ b.toNat ∧
          b.toNat < x.spaceEnd.toNat / 4096 * 4096 then c.write 0 else c := by
  obtain ⟨-, hle, -, hheap⟩ := h.dataEnd_le
  have halign := toNat_alignPage x.dataEnd (by omega)
  simp only [Call.effect, BitVec.le_def, BitVec.lt_def, halign, toNat_pageOf]

section Clears

variable (hzeros : x.HasZeros)
include hzeros

/-- One page that is cleared from both ends, which leaves no byte of it. -/
theorem clears_of_both (hhead : x.HeadPage b) (htail : x.TailPage b) : x.Clears b := by
  obtain ⟨-, hmod, hpage⟩ := hhead
  obtain ⟨-, -, hpage'⟩ := htail
  exact .inr ⟨⟨hzeros, hmod, by omega⟩, hpage⟩

theorem clears_iff_of_head (hhead : x.HeadPage b) (htail : ¬ x.TailPage b) :
    x.Clears b ↔ x.dataEnd.toNat ≤ b.toNat := by
  obtain ⟨-, -, hpage⟩ := hhead
  have hlt : x.dataEnd.toNat < x.spaceEnd.toNat := hzeros
  have hend : b.toNat < x.spaceEnd.toNat := by
    by_contra hge
    exact htail ⟨hzeros, by omega, by omega⟩
  have hdiff : x.dataEnd.toNat / 4096 ≠ x.spaceEnd.toNat / 4096 := by
    intro heq
    exact htail ⟨hzeros, by omega, by omega⟩
  exact ⟨fun hc => hc.elim And.left fun hw => absurd hw.1.2.2 hdiff, fun hle => .inl ⟨hle, hend⟩⟩

theorem clears_iff_of_tail (hhead : ¬ x.HeadPage b) (htail : x.TailPage b) :
    x.Clears b ↔ b.toNat < x.spaceEnd.toNat := by
  obtain ⟨-, -, hpage⟩ := htail
  have hlt : x.dataEnd.toNat < x.spaceEnd.toNat := hzeros
  have hge : x.dataEnd.toNat ≤ b.toNat := by
    by_contra hlt
    exact hhead ⟨hzeros, by omega, by omega⟩
  have hwipes : ¬ (x.Wipes ∧ b.toNat / 4096 = x.dataEnd.toNat / 4096) := fun hw =>
    hhead ⟨hzeros, hw.1.2.1, hw.2⟩
  exact ⟨fun hc => hc.elim And.right fun hw => absurd hw hwipes, fun hlt => .inl ⟨hge, hlt⟩⟩

theorem clears_iff_of_neither (hhead : ¬ x.HeadPage b) (htail : ¬ x.TailPage b) :
    x.Clears b ↔ (x.dataEnd.toNat + 4095) / 4096 * 4096 ≤ b.toNat ∧
      b.toNat < x.spaceEnd.toNat / 4096 * 4096 := by
  have hhead' : ¬ (x.dataEnd.toNat % 4096 ≠ 0 ∧
      b.toNat / 4096 = x.dataEnd.toNat / 4096) := fun hh => hhead ⟨hzeros, hh⟩
  have htail' : ¬ (x.spaceEnd.toNat % 4096 ≠ 0 ∧
      b.toNat / 4096 = x.spaceEnd.toNat / 4096) := fun hh => htail ⟨hzeros, hh⟩
  have hwipes : ¬ (x.Wipes ∧ b.toNat / 4096 = x.dataEnd.toNat / 4096) := fun hw =>
    hhead ⟨hzeros, hw.1.2.1, hw.2⟩
  rw [Clears, or_iff_left hwipes]
  omega

end Clears

/-- The pages that are cleared as a whole are no first or last pages. -/
theorem not_lazy_of_edge (hedge : x.HeadPage b ∨ x.TailPage b) :
    ¬ ((x.dataEnd.toNat + 4095) / 4096 * 4096 ≤ b.toNat ∧
      b.toNat < x.spaceEnd.toNat / 4096 * 4096) := by
  obtain ⟨-, hmod, hpage⟩ | ⟨-, hmod, hpage⟩ := hedge
  · omega
  · omega

/-- All calls for the zeros. -/
theorem effects_zeros (h : x.Fits low) (b : Word) (c : Content) :
    effects (zeroCalls x.dataEnd x.spaceEnd) b c =
      let c := if x.HeadPage b ∨ x.TailPage b then c.alloc else c
      if x.Clears b then c.write 0 else c := by
  rw [zeroCalls]
  by_cases hzeros : x.HasZeros
  · have hlt : x.dataEnd.toNat < x.spaceEnd.toNat := hzeros
    rw [if_pos (BitVec.lt_def.mpr hzeros), effects_append, effects_append, effects_cons,
      effects_nil, effects_head h hzeros, effects_tail h hzeros, effect_lazy h]
    by_cases hhead : x.HeadPage b
    · by_cases htail : x.TailPage b
      · have hclears := clears_of_both hzeros hhead htail
        have hlazy := not_lazy_of_edge (.inl hhead)
        simp only [hhead, htail, hclears, if_true, true_or, if_neg hlazy]
        split
        · split <;> simp
        · next hlt' =>
            rw [if_pos (by omega)]
            simp
      · have hclears := clears_iff_of_head hzeros hhead htail
        have hlazy := not_lazy_of_edge (.inl hhead)
        simp only [hhead, htail, hclears, if_true, if_false, true_or, if_neg hlazy]
    · by_cases htail : x.TailPage b
      · have hclears := clears_iff_of_tail hzeros hhead htail
        have hlazy := not_lazy_of_edge (.inr htail)
        simp only [hhead, htail, hclears, if_true, if_false, or_true, if_neg hlazy]
      · have hclears := clears_iff_of_neither hzeros hhead htail
        simp only [hhead, htail, hclears, if_false, or_self]
  · have hlt : ¬ x.dataEnd < x.spaceEnd := fun hlt => hzeros (BitVec.lt_def.mp hlt)
    have hhead : ¬ x.HeadPage b := fun hh => hzeros hh.1
    have htail : ¬ x.TailPage b := fun hh => hzeros hh.1
    have hclears : ¬ x.Clears b := by
      rintro (hc | hc)
      · exact hzeros (Nat.lt_of_le_of_lt hc.1 hc.2)
      · exact hzeros hc.1.1
    rw [if_neg hlt]
    simp only [effects_nil, hhead, htail, hclears, or_self, if_false]

theorem Fits.onPage_of_inData (h : x.Fits low) (hb : x.InData b) : x.data ≠ [] ∧ x.OnPage b := by
  obtain ⟨h₁, h₂⟩ := hb
  have hle := h.dataEnd_le.2.1
  rw [h.toNat_dataEnd] at h₂
  refine ⟨fun hnil => ?_, ?_, ?_⟩
  · rw [hnil, List.length_nil] at h₂
    omega
  · omega
  · rw [h.toNat_dataEnd] at hle
    omega

theorem Fits.onPage_of_grabs (h : x.Fits low) (hb : x.Grabs b) : x.OnPage b := by
  obtain ⟨hle, -, -, -⟩ := h.dataEnd_le
  obtain hb | ⟨hzeros, hmod, hb⟩ | ⟨hzeros, hmod, hb⟩ := hb
  · exact hb.2
  · have hlt : x.dataEnd.toNat < x.spaceEnd.toNat := hzeros
    exact ⟨by omega, by omega⟩
  · have hlt : x.dataEnd.toNat < x.spaceEnd.toNat := hzeros
    exact ⟨by omega, by omega⟩

/-- The pages of a segment without data get a frame at once or are cleared as a whole. -/
theorem Fits.grabs_or_clears (h : x.Fits low) (hb : x.OnPage b) (hgrabs : ¬ x.Grabs b) :
    x.Clears b ∧ b.toNat / 4096 * 4096 + 4096 ≤ x.spaceEnd.toNat := by
  obtain ⟨-, -, hlt, -⟩ := h.dataEnd_le
  obtain ⟨hdata, hzeros⟩ := not_or.mp hgrabs
  obtain ⟨hhead, htail⟩ := not_or.mp hzeros
  have hnil : x.data = [] := by
    by_contra hne
    exact hdata ⟨hne, hb⟩
  have hstart : x.dataEnd.toNat = x.vaddr.toNat := by
    rw [h.toNat_dataEnd, hnil]
    rfl
  obtain ⟨h₁, h₂⟩ := hb
  have hhas : x.HasZeros := by
    rw [HasZeros, hstart]
    exact hlt
  have hhead' : ¬ (x.dataEnd.toNat % 4096 ≠ 0 ∧ b.toNat / 4096 = x.dataEnd.toNat / 4096) :=
    fun hh => hhead ⟨hhas, hh⟩
  have htail' : ¬ (x.spaceEnd.toNat % 4096 ≠ 0 ∧ b.toNat / 4096 = x.spaceEnd.toNat / 4096) :=
    fun hh => htail ⟨hhas, hh⟩
  exact ⟨.inl ⟨by omega, by omega⟩, by omega⟩

/-- What all calls for a segment make of an address. -/
theorem Fits.effects_calls (h : x.Fits low) (b : Word) (c : Content) :
    effects x.calls b c = x.effect b c := by
  rw [calls, effects_append, effects_data h, effects_zeros h, effect]
  by_cases hdata : x.data ≠ [] ∧ x.OnPage b
  · have hgrabs : x.Grabs b := .inl hdata
    simp only [hdata, hgrabs, not_false_eq_true, ne_eq, and_self, if_true]
    by_cases hin : x.InData b
    · simp [hin]
    · simp [hin]
  · have hin : ¬ x.InData b := fun hin => hdata (h.onPage_of_inData hin)
    have hgrabs : x.Grabs b ↔ x.HeadPage b ∨ x.TailPage b := or_iff_right hdata
    simp only [hdata, hin, if_false, hgrabs]

end Segment

/-- All calls for a list of segments. -/
theorem effects_segments {xs : List Segment} (h : ∀ x ∈ xs, x.Fits low) (b : Word)
    (c : Content) :
    effects (xs.flatMap Segment.calls) b c = xs.foldl (fun c x => x.effect b c) c := by
  induction xs generalizing c with
  | nil => rfl
  | cons x xs ih =>
      obtain ⟨hx, hxs⟩ := List.forall_mem_cons.mp h
      rw [List.flatMap_cons, effects_append, hx.effects_calls, ih hxs, List.foldl_cons]

/-! ## The order of the calls -/

/-- The call stays in the pages `U`, intervals consist of pages, and bytes are written only
to pages that have frames. -/
def Call.Legal (U : Set Word) (σ : Word → Content) : Call → Prop
  | .allocInterval start stop | .lazyAllocInterval start stop =>
      pageOf start = start ∧ pageOf stop = stop ∧ ∀ b, start ≤ b → b < stop → b ∈ U
  | .alloc addr => addr ∈ U
  | .fileRead dest bytes => bytes.length < 2 ^ 32 ∧
      ∀ b, (b - dest).toNat < bytes.length → b ∈ U ∧ (σ b).frame = some true
  | .memset dest cnt => ∀ b, (b - dest).toNat < cnt.toNat → b ∈ U ∧ (σ b).frame = some true

/-- Every call is legal when its turn comes. -/
def LegalRun (U : Set Word) : List Call → (Word → Content) → Prop
  | [], _ => True
  | c :: cs, σ => c.Legal U σ ∧ LegalRun U cs fun b => c.effect b (σ b)

variable {U : Set Word} {σ : Word → Content}

theorem LegalRun.append {cs cs' : List Call} (h : LegalRun U cs σ)
    (h' : LegalRun U cs' fun b => effects cs b (σ b)) : LegalRun U (cs ++ cs') σ := by
  induction cs generalizing σ with
  | nil => exact h'
  | cons c cs ih => exact ⟨h.1, ih h.2 h'⟩

namespace Segment

variable {x : Segment}

section Legal

variable (h : x.Fits low) (hU : ∀ b, x.OnPage b → b ∈ U)
include h hU

theorem Fits.legal_data : LegalRun U (dataCalls x) σ := by
  obtain ⟨-, -, -, hheap⟩ := h.dataEnd_le
  have hlen := h.toNat_dataEnd
  have halign := toNat_alignPage x.spaceEnd (by omega)
  have hpage : ∀ b, x.OnPage b ↔ pageOf x.vaddr ≤ b ∧ b < getAligned (x.vaddr + x.memsz) 12 := by
    intro b
    change _ ↔ _ ∧ b < getAligned x.spaceEnd 12
    rw [BitVec.le_def, BitVec.lt_def, toNat_pageOf, OnPage, halign]
    omega
  rw [dataCalls]
  split
  · exact trivial
  · refine ⟨⟨pageOf_pageOf _, pageOf_getAligned _, fun b h₁ h₂ => hU b ((hpage b).mpr ⟨h₁, h₂⟩)⟩,
      ⟨by have := h.data_le; omega, fun b hb => ?_⟩, trivial⟩
    rw [toNat_sub_lt_iff (by have := h.data_le; have := x.memsz.isLt; omega)] at hb
    have hon := (h.onPage_of_inData (b := b) ⟨hb.1, by omega⟩).2
    refine ⟨hU b hon, ?_⟩
    simp only [Call.effect]
    rw [if_pos ((hpage b).mp hon)]
    exact Content.frame_alloc _

theorem Fits.legal_head (hzeros : x.HasZeros) : LegalRun U (headCalls x.dataEnd) σ := by
  obtain ⟨hle, -, -, hheap⟩ := h.dataEnd_le
  have hlt : x.dataEnd.toNat < x.spaceEnd.toNat := hzeros
  have halign := toNat_alignPage x.dataEnd (by omega)
  rw [headCalls]
  split
  · have hcnt : (getAligned x.dataEnd 12 - x.dataEnd).toNat =
        (getAligned x.dataEnd 12).toNat - x.dataEnd.toNat := by
      apply BitVec.toNat_sub_of_le
      rw [BitVec.le_def]
      omega
    refine ⟨hU _ ⟨by omega, by omega⟩, fun b hb => ?_, trivial⟩
    rw [hcnt, toNat_sub_lt_iff (by omega)] at hb
    refine ⟨hU b ⟨by omega, by omega⟩, ?_⟩
    simp only [Call.effect]
    rw [if_pos (pageOf_eq_iff.mpr (by omega))]
    exact Content.frame_alloc _
  · exact trivial

theorem Fits.legal_tail (hzeros : x.HasZeros) : LegalRun U (tailCalls x.spaceEnd) σ := by
  obtain ⟨hle, -, -, hheap⟩ := h.dataEnd_le
  have hlt : x.dataEnd.toNat < x.spaceEnd.toNat := hzeros
  have hpage := toNat_pageOf x.spaceEnd
  rw [tailCalls]
  split
  · next hne =>
      have hmod : (pageOf x.spaceEnd).toNat ≠ x.spaceEnd.toNat := fun e => hne (Word.ext_toNat e)
      have hcnt : (x.spaceEnd - pageOf x.spaceEnd).toNat =
          x.spaceEnd.toNat - (pageOf x.spaceEnd).toNat := by
        apply BitVec.toNat_sub_of_le
        rw [BitVec.le_def]
        omega
      refine ⟨hU _ ⟨by omega, by omega⟩, fun b hb => ?_, trivial⟩
      rw [hcnt, toNat_sub_lt_iff (by omega)] at hb
      refine ⟨hU b ⟨by omega, by omega⟩, ?_⟩
      simp only [Call.effect]
      rw [if_pos (pageOf_eq_iff.mpr (by omega))]
      exact Content.frame_alloc _
  · exact trivial

theorem Fits.legal_zeros : LegalRun U (zeroCalls x.dataEnd x.spaceEnd) σ := by
  obtain ⟨hle, hle', -, hheap⟩ := h.dataEnd_le
  rw [zeroCalls]
  split
  · next hlt =>
      have hzeros : x.HasZeros := BitVec.lt_def.mp hlt
      have halign := toNat_alignPage x.dataEnd (by omega)
      refine ((h.legal_head hU hzeros).append (h.legal_tail hU hzeros)).append
        ⟨⟨pageOf_getAligned _, pageOf_pageOf _, fun b h₁ h₂ => hU b ?_⟩, trivial⟩
      rw [BitVec.le_def] at h₁
      rw [BitVec.lt_def, toNat_pageOf] at h₂
      exact ⟨by omega, by omega⟩
  · exact trivial

end Legal

end Segment

theorem legal_segments {xs : List Segment} (h : ∀ x ∈ xs, x.Fits low)
    (hU : ∀ x ∈ xs, ∀ b, x.OnPage b → b ∈ U) : LegalRun U (xs.flatMap Segment.calls) σ := by
  induction xs generalizing σ with
  | nil => exact trivial
  | cons x xs ih =>
      obtain ⟨hx, hxs⟩ := List.forall_mem_cons.mp h
      obtain ⟨hUx, hUxs⟩ := List.forall_mem_cons.mp hU
      rw [List.flatMap_cons]
      exact ((hx.legal_data hUx).append (hx.legal_zeros hUx)).append (ih hxs hUxs)

/-! ## Segments in ascending order -/

/-- The segments are listed in ascending order and do not overlap. -/
def Ascending (xs : List Segment) : Prop :=
  xs.Pairwise fun x y => x.spaceEnd.toNat ≤ y.vaddr.toNat

namespace Segment

variable {x y : Segment} {c : Content} {v : Byte}

/-- The byte is settled up to what clears it: no later segment touches its page, or the page
has its frame. -/
def Settled (x : Segment) (b : Word) (v : Byte) (c : Content) : Prop :=
  c.byte = .value v ∧
    (c.frame = some true ∨ b.toNat / 4096 * 4096 + 4096 ≤ x.spaceEnd.toNat)

/-- The bytes of a segment after its own calls. -/
theorem Fits.settled_self (h : x.Fits low) (h₁ : x.vaddr.toNat ≤ b.toNat)
    (h₂ : b.toNat < x.spaceEnd.toNat) (c : Content) :
    x.Settled b (if x.Clears b then 0 else x.byteAt b) (x.effect b c) := by
  have hbyte : ¬ x.Clears b → x.InData b := by
    intro hclears
    refine ⟨h₁, ?_⟩
    by_contra hge
    exact hclears (.inl ⟨by omega, h₂⟩)
  refine ⟨?_, ?_⟩
  · rw [effect]
    split
    · rfl
    · next hclears =>
        rw [if_pos (hbyte hclears)]
        rfl
  · by_cases hgrabs : x.Grabs b
    · refine .inl ?_
      simp only [effect, hgrabs, if_true]
      split
      · simp
      · split <;> simp
    · exact .inr (h.grabs_or_clears ⟨by omega, by omega⟩ hgrabs).2

/-- The bytes of a segment after the calls for a later one. -/
theorem Settled.later (hs : x.Settled b v c) (h : y.Fits low)
    (horder : x.spaceEnd.toNat ≤ y.vaddr.toNat) (hb : b.toNat < x.spaceEnd.toNat) :
    x.Settled b (if y.Clears b then 0 else v) (y.effect b c) := by
  obtain ⟨hbyte, hframe⟩ := hs
  have hin : ¬ y.InData b := fun hin => by
    have := hin.1
    omega
  have halloc : (if y.Grabs b then c.alloc else c) = c := by
    split
    · next hgrabs =>
        refine Content.alloc_of_held (hframe.resolve_right fun hpage => ?_)
        have := (h.onPage_of_grabs hgrabs).1
        omega
    · rfl
  rw [effect, halloc, if_neg hin]
  split
  · exact ⟨rfl, hframe⟩
  · exact ⟨hbyte, hframe⟩

/-- The bytes of a segment in the end. -/
theorem Settled.run {ys : List Segment} (hs : x.Settled b v c) (h : ∀ y ∈ ys, y.Fits low)
    (horder : ∀ y ∈ ys, x.spaceEnd.toNat ≤ y.vaddr.toNat) (hb : b.toNat < x.spaceEnd.toNat) :
    x.Settled b (if ∃ y ∈ ys, y.Clears b then 0 else v)
      (ys.foldl (fun c y => y.effect b c) c) := by
  induction ys generalizing c v with
  | nil => simpa using hs
  | cons y ys ih =>
      obtain ⟨hy, hys⟩ := List.forall_mem_cons.mp h
      obtain ⟨hfirst, hrest⟩ := List.forall_mem_cons.mp horder
      have hrun := ih (hs.later hy hfirst hb) hys hrest
      have hvalue : (if ∃ z ∈ ys, z.Clears b then 0 else if y.Clears b then 0 else v) =
          if ∃ z ∈ y :: ys, z.Clears b then 0 else v := by
        simp only [List.exists_mem_cons_iff]
        by_cases hy : y.Clears b
        · simp [hy]
        · simp [hy]
      rw [hvalue] at hrun
      exact hrun

end Segment

/-- The byte at an address of a segment when all segments have been loaded. -/
theorem byte_of_ascending {xs ys zs : List Segment} {x : Segment} (hxs : xs = ys ++ x :: zs)
    (hfits : ∀ x ∈ xs, x.Fits low) (horder : Ascending xs) (h₁ : x.vaddr.toNat ≤ b.toNat)
    (h₂ : b.toNat < x.spaceEnd.toNat) (c : Content) :
    (effects (xs.flatMap Segment.calls) b c).byte =
      .value (if ∃ y ∈ x :: zs, y.Clears b then 0 else x.byteAt b) := by
  subst hxs
  obtain ⟨-, hxzs⟩ := List.forall_mem_append.mp hfits
  obtain ⟨hx, hzs⟩ := List.forall_mem_cons.mp hxzs
  obtain ⟨-, horder, -⟩ := List.pairwise_append.mp horder
  obtain ⟨hlater, -⟩ := List.pairwise_cons.mp horder
  rw [effects_segments hfits, List.foldl_append, List.foldl_cons]
  have hself := hx.settled_self h₁ h₂ (ys.foldl (fun c x => x.effect b c) c)
  have hrun := (hself.run hzs hlater h₂).1
  rw [hrun]
  congr 1
  simp only [List.exists_mem_cons_iff]
  by_cases hclears : x.Clears b
  · simp [hclears]
  · simp [hclears]

/-! ## Bytes that nothing fills -/

namespace Segment

variable {x : Segment} {c : Content}

/-- The bytes that are read from the file or cleared. -/
def Fills (x : Segment) (b : Word) : Prop := x.InData b ∨ x.Clears b

instance (x : Segment) (b : Word) : Decidable (x.Fills b) := inferInstanceAs (Decidable (_ ∨ _))

theorem effect_of_fills (h : x.Fills b) (c : Content) : ∃ v, (x.effect b c).byte = .value v := by
  rw [effect]
  split
  · exact ⟨_, rfl⟩
  · next hclears =>
      rw [if_pos (h.resolve_right hclears)]
      exact ⟨_, rfl⟩

theorem effect_of_not_fills (h : ¬ x.Fills b) (c : Content) :
    x.effect b c = if x.Grabs b then c.alloc else c := by
  obtain ⟨hin, hclears⟩ := not_or.mp h
  simp only [effect, hin, hclears, if_false]

/-- A page that has its frame. -/
theorem effect_of_held (hc : c.frame = some true) :
    (x.effect b c).frame = some true ∧ (¬ x.Fills b → x.effect b c = c) ∧
      ((∃ v, c.byte = .value v) → ∃ v, (x.effect b c).byte = .value v) := by
  have halloc : (if x.Grabs b then c.alloc else c) = c := by
    rw [Content.alloc_of_held hc, ite_self]
  have hkeep : ¬ x.Fills b → x.effect b c = c := fun h => (effect_of_not_fills h c).trans halloc
  refine ⟨?_, hkeep, fun hv => ?_⟩
  · rw [effect, halloc]
    split
    · exact hc
    · split <;> exact hc
  · by_cases hfills : x.Fills b
    · exact effect_of_fills hfills c
    · rw [hkeep hfills]
      exact hv

end Segment

/-- The first segment that gives the page of the address a frame does not fill the address,
and none of the following does. -/
def Leaks : List Segment → Word → Prop
  | [], _ => False
  | x :: xs, b => if x.Grabs b then ∀ y ∈ x :: xs, ¬ y.Fills b else Leaks xs b

theorem grabs_of_leaks {xs : List Segment} (h : Leaks xs b) : ∃ x ∈ xs, x.Grabs b := by
  induction xs with
  | nil => exact h.elim
  | cons x xs ih =>
      rw [Leaks] at h
      split at h
      · next hgrabs => exact ⟨x, List.mem_cons_self, hgrabs⟩
      · obtain ⟨y, hy, hgrabs⟩ := ih h
        exact ⟨y, List.mem_cons_of_mem x hy, hgrabs⟩

theorem held_run (xs : List Segment) {c : Content} (hc : c.frame = some true) :
    ((∀ x ∈ xs, ¬ x.Fills b) → xs.foldl (fun c x => x.effect b c) c = c) ∧
      ((∃ x ∈ xs, x.Fills b) ∨ (∃ v, c.byte = .value v) →
        ∃ v, (xs.foldl (fun c x => x.effect b c) c).byte = .value v) := by
  induction xs generalizing c with
  | nil => exact ⟨fun _ => rfl, fun h => h.resolve_left fun ⟨x, hx, _⟩ => by simp at hx⟩
  | cons x xs ih =>
      obtain ⟨hframe, hkeep, hvalue⟩ := Segment.effect_of_held (x := x) (b := b) hc
      obtain ⟨ihkeep, ihvalue⟩ := ih hframe
      refine ⟨fun h => ?_, fun h => ihvalue ?_⟩
      · obtain ⟨hx, hxs⟩ := List.forall_mem_cons.mp h
        rw [List.foldl_cons, ihkeep hxs, hkeep hx]
      · rw [List.exists_mem_cons_iff] at h
        obtain (hx | hxs) | hv := h
        · exact .inr (Segment.effect_of_fills hx c)
        · exact .inl hxs
        · exact .inr (hvalue hv)

/-- The bytes of pages that had no frame. -/
theorem bare_run {xs : List Segment} (hfits : ∀ x ∈ xs, x.Fits low) {c : Content}
    (hc : c.frame = some false) :
    (Leaks xs b → (xs.foldl (fun c x => x.effect b c) c).byte = .stale) ∧
      (¬ Leaks xs b → (∃ x ∈ xs, x.OnPage b) ∨ (∃ v, c.byte = .value v) →
        ∃ v, (xs.foldl (fun c x => x.effect b c) c).byte = .value v) := by
  induction xs generalizing c with
  | nil => exact ⟨False.elim, fun _ h => h.resolve_left fun ⟨x, hx, _⟩ => by simp at hx⟩
  | cons x xs ih =>
      obtain ⟨hx, hxs⟩ := List.forall_mem_cons.mp hfits
      rw [Leaks, List.foldl_cons]
      split
      · next hgrabs =>
          have hbyte : ¬ x.Fills b → x.effect b c = ⟨some true, .stale⟩ := fun hnot => by
            rw [Segment.effect_of_not_fills hnot, if_pos hgrabs, Content.alloc, hc]
          have hframe : (x.effect b c).frame = some true := by
            simp only [Segment.effect, hgrabs, if_true]
            split
            · simp
            · split <;> simp
          obtain ⟨hkeep, hvalue⟩ := held_run xs (b := b) hframe
          refine ⟨fun h => ?_, fun h _ => hvalue ?_⟩
          · obtain ⟨hnot, hrest⟩ := List.forall_mem_cons.mp h
            rw [hkeep hrest, hbyte hnot]
          · simp only [not_forall, not_not] at h
            obtain ⟨y, hy, hfills⟩ := h
            obtain rfl | hy := List.mem_cons.mp hy
            · exact .inr (Segment.effect_of_fills hfills c)
            · exact .inl ⟨y, hy, hfills⟩
      · next hgrabs =>
          -- such a segment clears the page or does not touch it
          have hin : ¬ x.InData b := fun hin => hgrabs (.inl (hx.onPage_of_inData hin))
          have heffect : x.effect b c = if x.Clears b then c.write 0 else c := by
            simp only [Segment.effect, hgrabs, hin, if_false]
          have hframe : (x.effect b c).frame = some false := by
            rw [heffect]
            split <;> exact hc
          obtain ⟨hleaks, hvalue⟩ := ih hxs hframe
          refine ⟨hleaks, fun h hsome => hvalue h ?_⟩
          by_cases hclears : x.Clears b
          · exact .inr (Segment.effect_of_fills (.inr hclears) c)
          · rw [heffect, if_neg hclears]
            rw [List.exists_mem_cons_iff] at hsome
            obtain (hpage | hpages) | hv := hsome
            · exact absurd (hx.grabs_or_clears hpage hgrabs).1 hclears
            · exact .inl hpages
            · exact .inr hv

/-- The bytes of the pages of the segments, which had no frames before. -/
theorem byte_of_bare {xs : List Segment} (hfits : ∀ x ∈ xs, x.Fits low)
    (hpage : ∃ x ∈ xs, x.OnPage b) :
    (Leaks xs b → (effects (xs.flatMap Segment.calls) b ⟨some false, .unknown⟩).byte = .stale) ∧
      (¬ Leaks xs b →
        ∃ v, (effects (xs.flatMap Segment.calls) b ⟨some false, .unknown⟩).byte = .value v) := by
  rw [effects_segments hfits]
  obtain ⟨hleaks, hvalue⟩ := bare_run (b := b) hfits (c := ⟨some false, .unknown⟩) rfl
  exact ⟨hleaks, fun h => hvalue h (.inl hpage)⟩

end Jkos.Elf
