import Jkos.Elf.Confine

/-!
# What a file makes the loader do

The segments of a file with the bytes that the loader takes for them. If the loader accepts
a file, its calls are those for each segment, one segment after the other.
-/

namespace Jkos.Elf

open Exec (Ends)
open Fs

variable {low high a b phoff : Word} {s s' : LoadState} {header : Phdr} {contents : List Byte}

/-- A segment that is loaded. The data are the bytes that the file has for it. -/
structure Segment where
  vaddr : Word
  memsz : Word
  data : List Byte

/-- The data of a segment begin at `p_offset` of the file. -/
def Segment.ofPhdr (contents : List Byte) (header : Phdr) : Segment where
  vaddr := header.vaddr
  memsz := header.memsz
  data := (contents.drop header.offset.toNat).take (Word.min header.filesz header.memsz).toNat

/-- The program header with a number. -/
def phdr (contents : List Byte) (phoff : Word) (i : Nat) : Phdr :=
  .ofBytes ((contents.drop (BitVec.ofNat 32 i * sizeofPhdr + phoff).toNat).take sizeofPhdr.toNat)

/-- The header of a file that has just been opened. -/
def ehdr (file : ByteFile) : Ehdr :=
  .ofBytes ((file.contents.drop file.cursor).take sizeofEhdr.toNat)

/-- The loader skips the other headers. -/
def Phdr.Loaded (header : Phdr) : Prop := header.type = ptLoad ∧ header.memsz ≠ 0

instance : DecidablePred Phdr.Loaded := fun _ => inferInstanceAs (Decidable (_ ∧ _))

/-- The headers of segments among the `n` program headers from number `i` on. -/
def headersFrom (contents : List Byte) (phoff : Word) (i n : Nat) : List Phdr :=
  ((List.range' i n).map (phdr contents phoff)).filter (·.Loaded)

theorem headersFrom_succ (contents : List Byte) (phoff : Word) (i n : Nat) :
    headersFrom contents phoff i (n + 1) =
      if (phdr contents phoff i).Loaded then
        phdr contents phoff i :: headersFrom contents phoff (i + 1) n
      else headersFrom contents phoff (i + 1) n := by
  rw [headersFrom, List.range'_succ, List.map_cons, List.filter_cons]
  simp only [decide_eq_true_eq]
  rfl

/-- The headers of the segments of a file. -/
def headers (file : ByteFile) : List Phdr :=
  headersFrom file.contents (ehdr file).phoff 0 (ehdr file).phnum

/-- The segments of a file. -/
def segments (file : ByteFile) : List Segment := (headers file).map (.ofPhdr file.contents)

/-! ## The calls for a segment -/

def dataCalls (x : Segment) : List Call :=
  if x.data = [] then []
  else
    [.allocInterval (pageOf x.vaddr) (getAligned (x.vaddr + x.memsz) 12), .fileRead x.vaddr x.data]

def headCalls (spaceStart : Word) : List Call :=
  let startAlg := getAligned spaceStart 12
  if spaceStart ≠ startAlg then [.alloc spaceStart, .memset spaceStart (startAlg - spaceStart)]
  else []

def tailCalls (spaceEnd : Word) : List Call :=
  let endAlg := pageOf spaceEnd
  if endAlg ≠ spaceEnd then [.alloc endAlg, .memset endAlg (spaceEnd - endAlg)] else []

def zeroCalls (spaceStart spaceEnd : Word) : List Call :=
  if spaceStart < spaceEnd then
    headCalls spaceStart ++ tailCalls spaceEnd ++
      [.lazyAllocInterval (getAligned spaceStart 12) (pageOf spaceEnd)]
  else []

namespace Segment

/-- `space_start` when the zeros are due. -/
def dataEnd (x : Segment) : Word := x.vaddr + BitVec.ofNat 32 x.data.length

/-- `space_end`. -/
def spaceEnd (x : Segment) : Word := x.vaddr + x.memsz

def calls (x : Segment) : List Call := dataCalls x ++ zeroCalls x.dataEnd x.spaceEnd

/-- The segment passed the check of its range, and the file has not more for it than fits. -/
structure Fits (low : Word) (x : Segment) : Prop where
  low_le : low.toNat ≤ x.vaddr.toNat
  end_lt : x.vaddr.toNat + x.memsz.toNat < 0xEFC00000
  pos : 0 < x.memsz.toNat
  data_le : x.data.length ≤ x.memsz.toNat

variable {x : Segment}

theorem Fits.toNat_dataEnd (h : x.Fits low) :
    x.dataEnd.toNat = x.vaddr.toNat + x.data.length := by
  have hend := h.end_lt
  have hdata := h.data_le
  rw [dataEnd, BitVec.toNat_add, BitVec.toNat_ofNat]
  omega

theorem Fits.toNat_spaceEnd (h : x.Fits low) :
    x.spaceEnd.toNat = x.vaddr.toNat + x.memsz.toNat := by
  have hend := h.end_lt
  rw [spaceEnd, BitVec.toNat_add]
  omega

end Segment

/-! ## Calls that have been made -/

theorem call_apply (c : Call) (s : LoadState) :
    call c s = (.ok (), { s with calls := s.calls ++ [c] }) := rfl

theorem zeroHead_apply (a : Word) (s : LoadState) :
    zeroHead a s = (.ok (), { s with calls := s.calls ++ headCalls a }) := by
  rw [zeroHead, headCalls]
  split
  · rw [Exec.bind_ok (call_apply _ _), call_apply, List.append_assoc]
    rfl
  · rw [List.append_nil]
    rfl

theorem zeroTail_apply (b : Word) (s : LoadState) :
    zeroTail b s = (.ok (), { s with calls := s.calls ++ tailCalls b }) := by
  rw [zeroTail, tailCalls]
  split
  · rw [Exec.bind_ok (call_apply _ _), call_apply, List.append_assoc]
    rfl
  · rw [List.append_nil]
    rfl

theorem loadZeros_apply (a b : Word) (s : LoadState) :
    loadZeros a b s = (.ok (), { s with calls := s.calls ++ zeroCalls a b }) := by
  rw [loadZeros, zeroCalls]
  split
  · rw [Exec.bind_ok (zeroHead_apply _ _), Exec.bind_ok (zeroTail_apply _ _), call_apply,
      List.append_assoc, List.append_assoc, List.append_assoc]
  · rw [List.append_nil]
    rfl

/-! ## Reading the file -/

/-- The calls that have been made since, while the file was only read. -/
def Added (cs : List Call) (s s' : LoadState) : Prop :=
  s'.file.contents = s.file.contents ∧ s'.calls = s.calls ++ cs

theorem Added.trans {cs cs' : List Call} {s'' : LoadState} (h : Added cs s s')
    (h' : Added cs' s' s'') : Added (cs ++ cs') s s'' :=
  ⟨h'.1.trans h.1, by rw [h'.2, h.2, List.append_assoc]⟩

theorem Added.of_eq (hcontents : s'.file.contents = s.file.contents) (hcalls : s'.calls = s.calls) :
    Added [] s s' :=
  ⟨hcontents, by rw [hcalls, List.append_nil]⟩

theorem Added.none_trans {cs : List Call} {s'' : LoadState} (h : Added [] s s')
    (h' : Added cs s' s'') : Added cs s s'' := by
  rw [← List.nil_append cs]
  exact h.trans h'

/-- Where a successful seek puts the cursor. -/
theorem seek_cursor (offset : Word) (s : LoadState) :
    Ends (seek offset) s
      (fun r s' => Added [] s s' ∧ (r ≠ -1 → s'.file.cursor = offset.toNat)) (fun _ _ => False) := by
  change Added [] s ⟨(s.file.seek offset.toNat seekSet).2, s.calls⟩ ∧
    ((s.file.seek offset.toNat seekSet).1.value ≠ -1 →
      (s.file.seek offset.toNat seekSet).2.cursor = offset.toNat)
  rw [ByteFile.seek]
  split
  · next t _ htarget =>
      obtain rfl : (offset.toNat : Int) = t := Option.some.inj htarget
      split
      · exact ⟨.of_eq rfl rfl, fun _ => Int.toNat_natCast _⟩
      · exact ⟨.of_eq rfl rfl, fun h => absurd rfl h⟩
  · exact ⟨.of_eq rfl rfl, fun h => absurd rfl h⟩

/-- What a read got if it got all it asked for. -/
theorem readFile_bytes (cnt : Word) (hcnt : cnt.toNat + 1 < 2 ^ 32) (s : LoadState) :
    Ends (readFile cnt) s
      (fun r s' => Added [] s s' ∧ (r.1 = cnt →
        r.2 = (s.file.contents.drop s.file.cursor).take cnt.toNat ∧ r.2.length = cnt.toNat))
      (fun _ _ => False) := by
  change Added [] s ⟨(s.file.read cnt.toNat).2, s.calls⟩ ∧
    (BitVec.ofInt 32 (s.file.read cnt.toNat).1.value = cnt →
      (s.file.read cnt.toNat).1.data = _ ∧ (s.file.read cnt.toNat).1.data.length = _)
  rw [ByteFile.read]
  split
  · refine ⟨.of_eq rfl rfl, fun h => ?_⟩
    have := congrArg BitVec.toNat h
    change 2 ^ 32 - 1 = cnt.toNat at this
    omega
  · refine ⟨.of_eq rfl rfl, fun h => ?_⟩
    have hamount : s.file.amount cnt.toNat = cnt.toNat := by
      have hle : s.file.amount cnt.toNat ≤ cnt.toNat := Nat.min_le_left _ _
      have := congrArg BitVec.toNat h
      change (BitVec.ofInt 32 (s.file.amount cnt.toNat : Int)).toNat = _ at this
      rw [BitVec.ofInt_natCast, BitVec.toNat_ofNat, Nat.mod_eq_of_lt (by omega)] at this
      exact this
    have hfile := s.file.amount_le cnt.toNat
    change (s.file.contents.drop s.file.cursor).take (s.file.amount cnt.toNat) = _ ∧
      ((s.file.contents.drop s.file.cursor).take (s.file.amount cnt.toNat)).length = _
    rw [hamount] at hfile ⊢
    refine ⟨rfl, ?_⟩
    rw [List.length_take, List.length_drop]
    omega

/-! ## A segment -/

theorem toNat_min (a b : Word) : (Word.min a b).toNat = min a.toNat b.toNat := by
  rw [Word.min]
  split
  · next hlt =>
      rw [BitVec.lt_def] at hlt
      omega
  · next hge =>
      rw [BitVec.lt_def] at hge
      omega

/-- The data of a segment that passed the check. -/
theorem loadData_added (hpos : header.memsz ≠ 0)
    (hend : header.vaddr.toNat + header.memsz.toNat < 0xEFC00000) :
    Ends (loadData header) s
      (fun spaceStart s' => Added (dataCalls (.ofPhdr s.file.contents header)) s s' ∧
        spaceStart = (Segment.ofPhdr s.file.contents header).dataEnd ∧
        (Segment.ofPhdr s.file.contents header).data.length =
          (Word.min header.filesz header.memsz).toNat)
      (fun _ _ => True) := by
  have hmin := toNat_min header.filesz header.memsz
  rw [loadData]
  split
  · next hzero =>
      have hnone : (Word.min header.filesz header.memsz).toNat = 0 := by
        rw [hmin, hzero]
        exact Nat.zero_min _
      have hdata : (Segment.ofPhdr s.file.contents header).data = [] := by
        rw [Segment.ofPhdr, hnone, List.take_zero]
      refine ⟨?_, ?_, ?_⟩
      · rw [dataCalls, if_pos hdata]
        exact .of_eq rfl rfl
      · rw [Segment.dataEnd, hdata]
        exact (BitVec.add_zero _).symm
      · rw [hdata, hnone]
        rfl
  · next hsize =>
      have hsome : (Word.min header.filesz header.memsz).toNat ≠ 0 := by
        have hfilesz : header.filesz.toNat ≠ 0 := fun e => hsize (Word.ext_toNat e)
        have hmemsz : header.memsz.toNat ≠ 0 := fun e => hpos (Word.ext_toNat e)
        omega
      refine ((seek_cursor header.offset s).mono (fun _ _ h => h) fun _ _ h => h.elim).bind ?_
      rintro r s₁ ⟨hadd₁, hcursor⟩
      split
      · exact trivial
      · next hr =>
          rw [Ends.bind_of_ok (call_apply _ _)]
          refine ((readFile_bytes (Word.min header.filesz header.memsz) (by omega) _).mono
            (fun _ _ h => h) fun _ _ h => h.elim).bind ?_
          rintro ⟨n, bytes⟩ s₃ ⟨hadd₃, hread⟩
          rw [Ends.bind_of_ok (call_apply _ _)]
          change Ends (if n ≠ _ then _ else _) _ _ _
          split
          · exact trivial
          · next hn =>
              obtain ⟨hbytes, hlen⟩ := hread (not_not.mp hn)
              change bytes.length = _ at hlen
              have hdata : (Segment.ofPhdr s.file.contents header).data = bytes := by
                change bytes = (s₁.file.contents.drop s₁.file.cursor).take _ at hbytes
                rw [hbytes, hadd₁.1, hcursor hr]
                rfl
              have hne : (Segment.ofPhdr s.file.contents header).data ≠ [] := by
                rw [hdata]
                rintro rfl
                exact hsome hlen.symm
              refine ⟨⟨hadd₃.1.trans hadd₁.1, ?_⟩, ?_, hdata ▸ hlen⟩
              · rw [dataCalls, if_neg hne, hdata]
                change s₃.calls ++ _ = _
                rw [hadd₃.2, List.append_nil]
                change s₁.calls ++ _ ++ _ = _
                rw [hadd₁.2, List.append_nil, List.append_assoc]
                rfl
              · rw [Segment.dataEnd, hdata, hlen, BitVec.ofNat_toNat, BitVec.setWidth_eq]
                rfl

/-! ## All segments -/

/-- A segment that was loaded, with all its data. -/
structure Loaded (low : Word) (contents : List Byte) (header : Phdr) : Prop where
  fits : (Segment.ofPhdr contents header).Fits low
  length : (Segment.ofPhdr contents header).data.length =
    (Word.min header.filesz header.memsz).toNat

section Loader

variable (hhigh : high = kernelHeapBegin - 1)
include hhigh

theorem loadSegment_added (hpos : header.memsz ≠ 0) :
    Ends (loadSegment low high header) s
      (fun _ s' => Added (Segment.ofPhdr s.file.contents header).calls s s' ∧
        Loaded low s.file.contents header)
      (fun _ _ => True) := by
  rw [loadSegment]
  split
  · exact trivial
  · next hcheck =>
      obtain ⟨hvaddr, hmem⟩ := not_or.mp hcheck
      have hhigh' : high.toNat = 0xEFBFFFFF := congrArg BitVec.toNat hhigh
      have hmemsz : header.memsz.toNat ≠ 0 := fun e => hpos (Word.ext_toNat e)
      refine (loadData_added hpos (by omega)).bind ?_
      rintro _ s₁ ⟨hadd, rfl, hlen⟩
      refine .of_ok (loadZeros_apply _ _ _) ⟨hadd.trans ⟨rfl, rfl⟩, ?_, hlen⟩
      refine ⟨BitVec.not_lt.mp hvaddr, ?_, Nat.pos_of_ne_zero hmemsz, ?_⟩
      · change header.vaddr.toNat + header.memsz.toNat < _
        omega
      · rw [hlen, toNat_min]
        exact Nat.min_le_right _ _

theorem loadLoop_added (n : Nat) : ∀ (i : Nat) (done : Bool) (s : LoadState),
    Ends (loadLoop low high phoff n (BitVec.ofNat 32 i) done) s
      (fun _ s' => Added (((headersFrom s.file.contents phoff i n).map
          (.ofPhdr s.file.contents)).flatMap Segment.calls) s s' ∧
        ∀ header ∈ headersFrom s.file.contents phoff i n, Loaded low s.file.contents header)
      (fun _ _ => True) := by
  induction n with
  | zero => exact fun i done s => ⟨.of_eq rfl rfl, fun header h => absurd h List.not_mem_nil⟩
  | succ n ih =>
      intro i done s
      rw [loadLoop]
      refine ((seek_cursor _ s).mono (fun _ _ h => h) fun _ _ h => h.elim).bind ?_
      rintro r s₁ ⟨hadd₁, hcursor⟩
      split
      · exact trivial
      · next hr =>
          refine ((readFile_bytes sizeofPhdr (by decide) _).mono (fun _ _ h => h)
            fun _ _ h => h.elim).bind ?_
          rintro ⟨cnt, bytes⟩ s₂ ⟨hadd₂, hread⟩
          change Ends (if cnt ≠ sizeofPhdr then _ else _) s₂ _ _
          split
          · exact trivial
          · next hcnt =>
              have hadd : Added [] s s₂ := hadd₁.trans hadd₂
              have hheader : Phdr.ofBytes bytes = phdr s.file.contents phoff i := by
                obtain ⟨hbytes, -⟩ := hread (not_not.mp hcnt)
                change bytes = _ at hbytes
                rw [hbytes, hadd₁.1, hcursor hr]
                rfl
              -- the counter of the loop wraps like the index of the header
              have hnext : BitVec.ofNat 32 i + 1 = BitVec.ofNat 32 (i + 1) := by
                rw [show (1 : Word) = BitVec.ofNat 32 1 from rfl, ← BitVec.ofNat_add]
              rw [hheader, hnext, headersFrom_succ]
              extract_lets header
              by_cases hloaded : (phdr s.file.contents phoff i).Loaded
              · have hcond := not_or.mpr ⟨not_not.mpr hloaded.1, hloaded.2⟩
                rw [if_neg hcond, if_pos hloaded, List.map_cons, List.flatMap_cons]
                refine (loadSegment_added hhigh hloaded.2).bind ?_
                rintro - s₃ ⟨hadd₃, hl⟩
                refine (ih (i + 1) true s₃).mono ?_ (fun _ _ h => h)
                rintro - s' ⟨hadd', hall⟩
                rw [hadd.1] at hadd₃ hl
                rw [hadd₃.1, hadd.1] at hadd' hall
                exact ⟨hadd.none_trans (hadd₃.trans hadd'), List.forall_mem_cons.mpr ⟨hl, hall⟩⟩
              · have hcond := not_and_or.mp hloaded
                rw [ne_eq, not_not] at hcond
                rw [if_pos hcond, if_neg hloaded]
                refine (ih (i + 1) done s₂).mono ?_ (fun _ _ h => h)
                rintro - s' ⟨hadd', hall⟩
                rw [hadd.1] at hadd' hall
                exact ⟨hadd.none_trans hadd', hall⟩

/-- The calls for a file that the loader accepts. -/
theorem loadElf_calls {file : ByteFile} {entry : Word} {cs : List Call}
    (h : loadElf low high (some file) = (.ok entry, cs)) :
    cs = (segments file).flatMap Segment.calls ∧
      ∀ header ∈ headers file, Loaded low file.contents header := by
  have hends : Ends (loadFile low high) ⟨file, []⟩
      (fun _ s' => Added ((segments file).flatMap Segment.calls) ⟨file, []⟩ s' ∧
        ∀ header ∈ headers file, Loaded low file.contents header) (fun _ _ => True) := by
    rw [loadFile]
    refine ((readFile_bytes sizeofEhdr (by decide) _).mono (fun _ _ h => h)
      fun _ _ h => h.elim).bind ?_
    rintro ⟨cnt, bytes⟩ s₁ ⟨hadd₁, hread⟩
    change Ends (if cnt ≠ sizeofEhdr then _ else _) s₁ _ _
    split
    · exact trivial
    · next hcnt =>
        have hheader : Ehdr.ofBytes bytes = ehdr file := by
          obtain ⟨hbytes, -⟩ := hread (not_not.mp hcnt)
          exact congrArg Ehdr.ofBytes hbytes
        rw [hheader]
        extract_lets header
        split
        · exact trivial
        · refine (loadLoop_added hhigh header.phnum 0 false s₁).bind ?_
          rintro done s₂ ⟨hadd₂, hall⟩
          change Ends (if done = true then _ else _) s₂ _ _
          split
          · rw [hadd₁.1] at hadd₂ hall
            exact ⟨hadd₁.none_trans hadd₂, hall⟩
          · exact trivial
  cases hrun : loadFile low high ⟨file, []⟩ with
  | mk r s' =>
      simp only [loadElf, hrun] at h
      obtain ⟨rfl, rfl⟩ := Prod.mk.inj h
      obtain ⟨hadd, hall⟩ := hends.ok hrun
      exact ⟨hadd.2, hall⟩

end Loader

end Jkos.Elf
