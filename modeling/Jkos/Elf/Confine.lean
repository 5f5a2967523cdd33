import Jkos.Elf.Load

/-!
# The loader stays in user memory

Whatever the file holds, the pages that the loader sets up and the bytes that it writes lie
between `USER_MEM_LOW` and the kernel heap. The check of a segment is made once, on its
unrounded ends; rounding cannot leave the range because its ends are page bounds.
-/

namespace Jkos.Elf

open Exec (Ends)
open Fs

variable {low high a start stop spaceStart spaceEnd : Word} {s s' : LoadState}

namespace Call

/-- The addresses of the pages that the call sets up, page by page as its loop does, and of
the bytes that it writes. -/
def touches : Call → Set Word
  | .allocInterval start stop | .lazyAllocInterval start stop =>
      {a | ∃ k : Nat, (∀ j ≤ k, start + BitVec.ofNat 32 (0x1000 * j) < stop) ∧
        pageOf a = pageOf (start + BitVec.ofNat 32 (0x1000 * k))}
  | .alloc addr => {a | pageOf a = pageOf addr}
  | .fileRead dest bytes => {a | (a - dest).toNat < bytes.length}
  | .memset dest cnt => {a | (a - dest).toNat < cnt.toNat}

/-- The call stays in user memory. -/
def Inside (low : Word) (c : Call) : Prop := ∀ a ∈ c.touches, low ≤ a ∧ a < kernelHeapBegin

end Call

/-! ## Ranges -/

theorem toNat_kernelHeapBegin : kernelHeapBegin.toNat = 0xEFC00000 := by decide

/-- Rounding up stays below a page bound. -/
theorem toNat_getAligned_le {addr bound : Word} (hbound : 4096 ∣ bound.toNat)
    (h : addr.toNat ≤ bound.toNat) :
    addr.toNat ≤ (getAligned addr 12).toNat ∧ (getAligned addr 12).toNat ≤ bound.toNat ∧
      (getAligned addr 12).toNat < addr.toNat + 4096 ∧ 4096 ∣ (getAligned addr 12).toNat := by
  have hle : alignUp addr.toNat 12 ≤ bound.toNat := alignUp_le h hbound
  obtain ⟨hge, hlt, hdvd⟩ := alignUp_bounds addr.toNat 12
  have hbv := bound.isLt
  rw [toNat_getAligned_mod, Nat.mod_eq_of_lt (by omega)]
  exact ⟨hge, hle, hlt, hdvd⟩

/-- The loop over an interval of pages visits the interval. -/
theorem mem_interval (hstart : pageOf start = start) (hstop : pageOf stop = stop)
    (ha : ∃ k : Nat, (∀ j ≤ k, start + BitVec.ofNat 32 (0x1000 * j) < stop) ∧
      pageOf a = pageOf (start + BitVec.ofNat 32 (0x1000 * k))) :
    start ≤ a ∧ a < stop := by
  obtain ⟨k, hloop, hpage⟩ := ha
  have hstart' := congrArg BitVec.toNat hstart
  have hstop' := congrArg BitVec.toNat hstop
  have hpage' := congrArg BitVec.toNat hpage
  rw [toNat_pageOf] at hstart' hstop'
  rw [toNat_pageOf, toNat_pageOf] at hpage'
  have hbv := stop.isLt
  have hsum : ∀ j ≤ k, (start + BitVec.ofNat 32 (0x1000 * j)).toNat =
      start.toNat + 0x1000 * j ∧ start.toNat + 0x1000 * j < stop.toNat := by
    intro j
    induction j with
    | zero =>
        intro hj
        have := hloop 0 hj
        rw [BitVec.lt_def] at this
        simpa using this
    | succ j ih =>
        intro hj
        obtain ⟨-, hlt⟩ := ih (Nat.le_of_succ_le hj)
        have hnext := hloop (j + 1) hj
        have hval : (start + BitVec.ofNat 32 (0x1000 * (j + 1))).toNat =
            start.toNat + 0x1000 * (j + 1) := by
          rw [BitVec.toNat_add, BitVec.toNat_ofNat]
          omega
        rw [BitVec.lt_def, hval] at hnext
        exact ⟨hval, hnext⟩
  obtain ⟨hval, hlt⟩ := hsum k (Nat.le_refl k)
  rw [hval] at hpage'
  rw [BitVec.le_def, BitVec.lt_def]
  omega

section Inside

variable (hlow : 4096 ∣ low.toNat)
include hlow

theorem inside_interval (hstart : pageOf start = start) (hstop : pageOf stop = stop)
    (hle : low.toNat ≤ start.toNat) (hge : stop.toNat ≤ 0xEFC00000) :
    (Call.allocInterval start stop).Inside low ∧
      (Call.lazyAllocInterval start stop).Inside low := by
  have hall : ∀ a, (∃ k : Nat, (∀ j ≤ k, start + BitVec.ofNat 32 (0x1000 * j) < stop) ∧
      pageOf a = pageOf (start + BitVec.ofNat 32 (0x1000 * k))) →
      low ≤ a ∧ a < kernelHeapBegin := by
    intro a ha
    obtain ⟨hlo, hhi⟩ := mem_interval hstart hstop ha
    rw [BitVec.le_def] at hlo
    rw [BitVec.lt_def] at hhi
    rw [BitVec.le_def, BitVec.lt_def, toNat_kernelHeapBegin]
    omega
  exact ⟨hall, hall⟩

theorem inside_alloc (hle : low.toNat ≤ a.toNat) (hlt : a.toNat < 0xEFC00000) :
    (Call.alloc a).Inside low := by
  intro b hb
  have hpage := congrArg BitVec.toNat (show pageOf b = pageOf a from hb)
  rw [toNat_pageOf, toNat_pageOf] at hpage
  rw [BitVec.le_def, BitVec.lt_def, toNat_kernelHeapBegin]
  omega

omit hlow in
theorem inside_bytes {n : Nat} (hle : low.toNat ≤ a.toNat) (hlt : a.toNat + n ≤ 0xEFC00000) :
    (∀ bytes : List Byte, bytes.length ≤ n → (Call.fileRead a bytes).Inside low) ∧
      ∀ cnt : Word, cnt.toNat ≤ n → (Call.memset a cnt).Inside low := by
  have hall : ∀ b : Word, (b - a).toNat < n → low ≤ b ∧ b < kernelHeapBegin := by
    intro b hb
    rw [BitVec.le_def, BitVec.lt_def, toNat_kernelHeapBegin]
    bv_omega
  exact ⟨fun bytes hlen b hb => hall b (Nat.lt_of_lt_of_le hb hlen),
    fun cnt hcnt b hb => hall b (Nat.lt_of_lt_of_le hb hcnt)⟩

end Inside

/-! ## The parts of the loader -/

/-- All calls so far stay in user memory. -/
def Confined (low : Word) (s : LoadState) : Prop := ∀ c ∈ s.calls, c.Inside low

theorem call_ends {c : Call} (h : Confined low s) (hc : c.Inside low) :
    Ends (call c) s (fun _ s' => Confined low s') (fun _ s' => Confined low s') := by
  intro c' hc'
  rw [List.mem_append, List.mem_singleton] at hc'
  obtain hold | rfl := hc'
  · exact h c' hold
  · exact hc

theorem seek_ends (offset : Word) (h : Confined low s) :
    Ends (seek offset) s (fun _ s' => Confined low s') (fun _ s' => Confined low s') := h

/-- No more bytes are read than were asked for. -/
theorem length_read_le (f : ByteFile) (cnt : Nat) : (f.read cnt).1.data.length ≤ cnt := by
  rw [ByteFile.read]
  split
  · exact Nat.zero_le _
  · change ((f.contents.drop f.cursor).take (f.amount cnt)).length ≤ cnt
    rw [List.length_take, ByteFile.amount]
    omega

theorem readFile_ends (cnt : Word) (h : Confined low s) :
    Ends (readFile cnt) s (fun r s' => r.2.length ≤ cnt.toNat ∧ Confined low s')
      (fun _ s' => Confined low s') :=
  ⟨length_read_le s.file cnt.toNat, h⟩

/-- The segment passed the check of its range. -/
structure Fits (low : Word) (header : Phdr) : Prop where
  low_le : low.toNat ≤ header.vaddr.toNat
  end_lt : header.vaddr.toNat + header.memsz.toNat < 0xEFC00000

section Segment

variable {header : Phdr} (hlow : 4096 ∣ low.toNat) (hfits : Fits low header)
include hlow hfits

omit hlow in
theorem Fits.toNat_end :
    (header.vaddr + header.memsz).toNat = header.vaddr.toNat + header.memsz.toNat := by
  have hend := hfits.end_lt
  rw [BitVec.toNat_add, Nat.mod_eq_of_lt (by omega)]

theorem loadData_ends (h : Confined low s) :
    Ends (loadData header) s
      (fun spaceStart s' => header.vaddr.toNat ≤ spaceStart.toNat ∧
        spaceStart.toNat ≤ header.vaddr.toNat + header.memsz.toNat ∧ Confined low s')
      (fun _ s' => Confined low s') := by
  have hend := hfits.end_lt
  have hmin : (Word.min header.filesz header.memsz).toNat ≤ header.memsz.toNat := by
    rw [Word.min]
    split
    · next hlt =>
        rw [BitVec.lt_def] at hlt
        omega
    · exact Nat.le_refl _
  rw [loadData]
  split
  · exact ⟨Nat.le_refl _, Nat.le_add_right _ _, h⟩
  · apply (seek_ends _ h).bind
    intro r s' h'
    split
    · exact h'
    · have hheap : (header.vaddr + header.memsz).toNat ≤ kernelHeapBegin.toNat := by
        rw [hfits.toNat_end, toNat_kernelHeapBegin]
        omega
      have halign := toNat_getAligned_le (by decide) hheap
      have hstart : low.toNat ≤ (pageOf header.vaddr).toNat := by
        have := hfits.low_le
        rw [toNat_pageOf]
        omega
      apply (call_ends h' (inside_interval hlow (pageOf_pageOf _) (pageOf_getAligned _) hstart
        halign.2.1).1).bind
      intro _ s' h'
      apply (readFile_ends _ h').bind
      intro ⟨n, bytes⟩ s' h'
      have hread : (Call.fileRead header.vaddr bytes).Inside low :=
        (inside_bytes hfits.low_le (Nat.le_of_lt hend)).1 bytes (Nat.le_trans h'.1 hmin)
      apply (call_ends h'.2 hread).bind
      intro _ s' h'
      change Ends (if n ≠ _ then _ else _) s' _ _
      split
      · exact h'
      · have hsum : (header.vaddr + Word.min header.filesz header.memsz).toNat =
            header.vaddr.toNat + (Word.min header.filesz header.memsz).toNat := by
          rw [BitVec.toNat_add, Nat.mod_eq_of_lt (by omega)]
        refine ⟨?_, ?_, h'⟩
        · rw [hsum]
          exact Nat.le_add_right _ _
        · rw [hsum]
          exact Nat.add_le_add_left hmin _

end Segment

section Zeros

variable (hlow : 4096 ∣ low.toNat) (hstart : low.toNat ≤ spaceStart.toNat)
  (hlt : spaceStart.toNat < spaceEnd.toNat) (hend : spaceEnd.toNat < 0xEFC00000)
include hlow hstart hlt hend

theorem zeroHead_ends (h : Confined low s) :
    Ends (zeroHead spaceStart) s (fun _ s' => Confined low s') (fun _ s' => Confined low s') := by
  have hheap : spaceStart.toNat ≤ kernelHeapBegin.toNat := by
    rw [toNat_kernelHeapBegin]
    omega
  obtain ⟨hge, hle, hnear, -⟩ := toNat_getAligned_le (by decide) hheap
  rw [toNat_kernelHeapBegin] at hle
  have hcnt : (getAligned spaceStart 12 - spaceStart).toNat =
      (getAligned spaceStart 12).toNat - spaceStart.toNat := BitVec.toNat_sub_of_le hge
  rw [zeroHead]
  split
  · apply (call_ends h (inside_alloc hlow hstart (by omega))).bind
    intro _ s' h'
    exact call_ends h' ((inside_bytes (n := (getAligned spaceStart 12).toNat - spaceStart.toNat)
      hstart (by omega)).2 _ (Nat.le_of_eq hcnt))
  · exact h

theorem zeroTail_ends (h : Confined low s) :
    Ends (zeroTail spaceEnd) s (fun _ s' => Confined low s') (fun _ s' => Confined low s') := by
  have halign := toNat_pageOf spaceEnd
  have hcnt : (spaceEnd - pageOf spaceEnd).toNat = spaceEnd.toNat - (pageOf spaceEnd).toNat := by
    apply BitVec.toNat_sub_of_le
    rw [BitVec.le_def]
    omega
  have hlo : low.toNat ≤ (pageOf spaceEnd).toNat := by omega
  rw [zeroTail]
  split
  · apply (call_ends h (inside_alloc hlow hlo (by omega))).bind
    intro _ s' h'
    exact call_ends h' ((inside_bytes (n := spaceEnd.toNat - (pageOf spaceEnd).toNat)
      hlo (by omega)).2 _ (Nat.le_of_eq hcnt))
  · exact h

theorem loadZeros_ends (h : Confined low s) :
    Ends (loadZeros spaceStart spaceEnd) s (fun _ s' => Confined low s')
      (fun _ s' => Confined low s') := by
  have hheap : spaceStart.toNat ≤ kernelHeapBegin.toNat := by
    rw [toNat_kernelHeapBegin]
    omega
  obtain ⟨hge, -, -, -⟩ := toNat_getAligned_le (by decide) hheap
  have hpage := toNat_pageOf spaceEnd
  rw [loadZeros, if_pos (BitVec.lt_def.mpr hlt)]
  apply (zeroHead_ends hlow hstart hlt hend h).bind
  intro _ s' h'
  apply (zeroTail_ends hlow hstart hlt hend h').bind
  intro _ s' h'
  exact call_ends h' (inside_interval hlow (pageOf_getAligned _) (pageOf_pageOf _)
    (Nat.le_trans hstart hge) (by omega)).2

end Zeros

section Loader

variable {header : Phdr} (hlow : 4096 ∣ low.toNat) (hhigh : high = kernelHeapBegin - 1)
include hlow hhigh

/-- The check on the ends of a segment is enough for all of its calls. -/
theorem loadSegment_ends (h : Confined low s) :
    Ends (loadSegment low high header) s (fun _ s' => Confined low s')
      (fun _ s' => Confined low s') := by
  rw [loadSegment]
  split
  · exact h
  · next hcheck =>
      obtain ⟨hvaddr, hmem⟩ := not_or.mp hcheck
      have hhigh' : high.toNat = 0xEFBFFFFF := congrArg BitVec.toNat hhigh
      have hfits : Fits low header := ⟨BitVec.not_lt.mp hvaddr, by omega⟩
      have hend := hfits.end_lt
      apply (loadData_ends hlow hfits h).bind
      intro spaceStart s' ⟨hge, hle, h'⟩
      have hsum := hfits.toNat_end
      by_cases hlt : spaceStart < header.vaddr + header.memsz
      · exact loadZeros_ends hlow (Nat.le_trans hfits.low_le hge) hlt (by omega) h'
      · rw [loadZeros, if_neg hlt]
        exact h'

theorem loadLoop_ends (phoff : Word) (n : Nat) :
    ∀ (i : Word) (done : Bool) (s : LoadState), Confined low s →
      Ends (loadLoop low high phoff n i done) s (fun _ s' => Confined low s')
        (fun _ s' => Confined low s') := by
  induction n with
  | zero => exact fun i done s h => h
  | succ n ih =>
      intro i done s h
      rw [loadLoop]
      apply (seek_ends _ h).bind
      intro r s' h'
      split
      · exact h'
      · apply (readFile_ends _ h').bind
        intro ⟨cnt, bytes⟩ s' h'
        change Ends (if cnt ≠ sizeofPhdr then _ else _) s' _ _
        split
        · exact h'.2
        · extract_lets header
          split
          · exact ih _ _ s' h'.2
          · apply (loadSegment_ends hlow hhigh h'.2).bind
            intro _ s' h'
            exact ih _ _ s' h'

theorem loadFile_ends (h : Confined low s) :
    Ends (loadFile low high) s (fun _ s' => Confined low s') (fun _ s' => Confined low s') := by
  rw [loadFile]
  apply (readFile_ends _ h).bind
  intro ⟨cnt, bytes⟩ s' h'
  change Ends (if cnt ≠ sizeofEhdr then _ else _) s' _ _
  split
  · exact h'.2
  · extract_lets header
    split
    · exact h'.2
    · apply (loadLoop_ends hlow hhigh _ _ _ _ s' h'.2).bind
      intro done s' h'
      change Ends (if done = true then _ else _) s' _ _
      split <;> exact h'

/-- Whatever the file holds and wherever the loader gives up, it stays in user memory. -/
theorem loadElf_confined (file : Option ByteFile) :
    ∀ c ∈ (loadElf low high file).2, ∀ a ∈ c.touches, low ≤ a ∧ a < kernelHeapBegin := by
  cases file with
  | none =>
      intro c hc
      exact absurd hc List.not_mem_nil
  | some file =>
      have hnil : Confined low ⟨file, []⟩ := fun c hc => absurd hc List.not_mem_nil
      have hends := loadFile_ends hlow hhigh hnil
      rw [Ends] at hends
      rw [loadElf]
      split at hends <;> next hrun => rw [hrun]; exact hends

end Loader

/-- One segment of two bytes, of which the file has one. -/
theorem segmentFile_confined :
    Confined 0x400000 ⟨segmentFile 0x8048000 2 [7],
      (loadElf 0x400000 0xEFBFFFFF (some (segmentFile 0x8048000 2 [7]))).2⟩ := by
  apply loadElf_confined
  · decide
  · decide

end Jkos.Elf
