import Jkos.Common
import Jkos.Lib.I386

/-!
# Moving the stack

`move_stack` copies the stack of the boot loader to the place of the kernel stack and adds the
distance to every word of the copy that looks like a pointer into the old stack. The functions
that are running go on in the copy, so their frames have to be linked there as they were.
-/

namespace Jkos.Task

open I386

/-- `memcpy`: `rep movsb` goes upwards. -/
def memcpy (mem : Word → Byte) (dest src : Word) : Nat → Word → Byte
  | 0 => mem
  | n + 1 => memcpy (Function.update mem dest (mem src)) (dest + 1) (src + 1) n

/-- Memory, and the static variables of `move_stack`, which lie on neither stack. -/
structure MoveStack where
  mem : Word → Byte
  i : Word
  oldEsp : Word
  oldEbp : Word
  offset : Word
  newEsp : Word
  newEbp : Word
  tmp : Word

/-- The loop of `move_stack`, where `initialSp` is `initial_stack_pointer`. -/
def relocate (initialSp : Word) : Nat → MoveStack → Option MoveStack
  | 0, _ => none
  | fuel + 1, s =>
    if s.i > s.newEsp then
      let s := { s with tmp := load32 s.mem s.i }
      let s := if s.tmp < initialSp ∧ s.tmp > s.oldEsp then
          { s with mem := store32 s.mem s.i (load32 s.mem s.i + s.offset) }
        else s
      relocate initialSp fuel { s with i := s.i - 4 }
    else some s

/-- `move_stack` once `alloc_interval` has given the new stack its pages. The processor goes on
with `newEsp` and `newEbp`. -/
def moveStack (initialSp esp ebp : Word) (s : MoveStack) : Option MoveStack :=
  let s := { s with oldEsp := esp, oldEbp := ebp }
  let s := { s with offset := kernelStackPos - initialSp }
  let s := { s with newEsp := s.oldEsp + s.offset }
  let s := { s with newEbp := s.oldEbp + s.offset }
  let s := { s with mem := memcpy s.mem s.newEsp s.oldEsp (initialSp - s.oldEsp).toNat }
  relocate initialSp loopBound { s with i := kernelStackPos - 4 }

/-! ## What happens to memory -/

section

variable (initialSp oldEsp : Word)

/-- The distance between the stacks. -/
def stackOffset : Word := kernelStackPos - initialSp

/-- The end of the new stack. -/
def newEsp : Word := oldEsp + stackOffset initialSp

/-- The frame pointer in the new stack. -/
def newEbp (oldEbp : Word) : Word := oldEbp + stackOffset initialSp

/-- What the loop does to memory. -/
def relocateFrom : Nat → Word → (Word → Byte) → Option (Word → Byte)
  | 0, _, _ => none
  | fuel + 1, i, mem =>
      if i > newEsp initialSp oldEsp then
        let tmp := load32 mem i
        relocateFrom fuel (i - 4)
          (if tmp < initialSp ∧ tmp > oldEsp then store32 mem i (tmp + stackOffset initialSp)
            else mem)
      else some mem

/-- What `move_stack` does to memory. -/
def moveStackWords (mem : Word → Byte) : Option (Word → Byte) :=
  relocateFrom initialSp oldEsp loopBound (kernelStackPos - 4)
    (memcpy mem (newEsp initialSp oldEsp) oldEsp (initialSp - oldEsp).toNat)

/-- What becomes of a word. -/
def relocated (v : Word) : Word :=
  if v < initialSp ∧ v > oldEsp then v + stackOffset initialSp else v

/-- The old stack has at most a page of words and lies below the new one. -/
structure BootStack : Prop where
  le : oldEsp.toNat ≤ initialSp.toNat
  words : 4 ∣ initialSp.toNat - oldEsp.toNat
  fits : initialSp.toNat - oldEsp.toNat ≤ kernelStackSize.toNat
  below : initialSp.toNat ≤ kernelStackPos.toNat - kernelStackSize.toNat

end

variable {initialSp oldEsp : Word} {mem mem' : Word → Byte} {a dest src : Word} {k n : Nat}

theorem memcpy_apply (mem : Word → Byte) (dest src : Word) (hn : n ≤ 2 ^ 32)
    (apart : ∀ i < n, ∀ j < n, dest + BitVec.ofNat 32 i ≠ src + BitVec.ofNat 32 j) (a : Word) :
    memcpy mem dest src n a = if (a - dest).toNat < n then mem (src + (a - dest)) else mem a := by
  induction n generalizing mem dest src with
  | zero => rfl
  | succ n ih =>
      have hnext : ∀ i < n, ∀ j < n,
          dest + 1 + BitVec.ofNat 32 i ≠ src + 1 + BitVec.ofNat 32 j := by
        intro i hi j hj he
        apply apart (i + 1) (by omega) (j + 1) (by omega)
        bv_omega
      rw [memcpy, ih _ _ _ (by omega) hnext]
      by_cases ha : a = dest
      · subst ha
        have hlast : ¬ (a - (a + 1)).toNat < n := by bv_omega
        have hzero : (0#32).toNat < n + 1 := Nat.succ_pos n
        rw [if_neg hlast, Function.update_self, BitVec.sub_self, if_pos hzero]
        exact congrArg mem (BitVec.add_zero src).symm
      · have hstep : (a - dest).toNat = (a - (dest + 1)).toNat + 1 := by bv_omega
        have hsrc : src + 1 + (a - (dest + 1)) = src + (a - dest) := by bv_omega
        rw [hstep, hsrc]
        by_cases hlt : (a - (dest + 1)).toNat < n
        · rw [if_pos hlt, if_pos (by omega)]
          apply Function.update_of_ne
          intro he
          apply apart 0 (by omega) (a - dest).toNat (by omega)
          rw [BitVec.ofNat_toNat, BitVec.setWidth_eq, he]
          exact BitVec.add_zero dest
        · rw [if_neg hlt, if_neg (by omega)]
          exact Function.update_of_ne ha _ _

/-! ## The words of the new stack -/

/-- Word `k` of a stack that ends at `top`, counted from its end. -/
def wordAt (top : Word) (k : Nat) : Word := top - BitVec.ofNat 32 (4 * k)

theorem toNat_wordAt (top : Word) (k : Nat) (h : 4 * k ≤ top.toNat) :
    (wordAt top k).toNat = top.toNat - 4 * k := by
  rw [wordAt]
  bv_omega

theorem wordAt_succ (top : Word) (k : Nat) : wordAt top k - 4 = wordAt top (k + 1) := by
  simp only [wordAt]
  bv_omega

/-- How far a byte of word `k` lies above the last of `n` words. -/
theorem toNat_wordAt_sub {top : Word} (x : Fin 4) (hn : 4 * n ≤ top.toNat) (hk : k ≤ n) :
    (wordAt top k + BitVec.ofNat 32 x - wordAt top n).toNat = 4 * (n - k) + x := by
  have hx := x.isLt
  have htop := top.isLt
  have hdiff : wordAt top k + BitVec.ofNat 32 x - wordAt top n =
      BitVec.ofNat 32 (4 * (n - k) + x) := by
    simp only [wordAt]
    bv_omega
  rw [hdiff, BitVec.toNat_ofNat, Nat.mod_eq_of_lt (by omega)]

/-- The same byte of the same word, below another end. -/
theorem wordAt_add_sub (top top' x : Word) (k n : Nat) :
    wordAt top n + (wordAt top' k + x - wordAt top' n) = wordAt top k + x := by
  simp only [wordAt]
  grind

/-- Two words with the same bytes. -/
theorem load32_eq_of_bytes {a b : Word}
    (h : ∀ i : Fin 4, mem' (a + BitVec.ofNat 32 i) = mem (b + BitVec.ofNat 32 i)) :
    load32 mem' a = load32 mem b := by
  have h0 : mem' a = mem b := by simpa using h 0
  have h1 : mem' (a + 1) = mem (b + 1) := h 1
  have h2 : mem' (a + 2) = mem (b + 2) := h 2
  have h3 : mem' (a + 3) = mem (b + 3) := h 3
  simp only [load32, h0, h1, h2, h3]

/-- Different words do not overlap. -/
theorem load32_store32_wordAt (mem : Word → Byte) (top v : Word) {j : Nat}
    (hk : 4 * k ≤ top.toNat) (hj : 4 * j ≤ top.toNat) :
    load32 (store32 mem (wordAt top k) v) (wordAt top j) =
      if j = k then v else load32 mem (wordAt top j) := by
  have hk' := toNat_wordAt top k hk
  have hj' := toNat_wordAt top j hj
  have htop := top.isLt
  split
  · next h => rw [h, load32_store32]
  · next h =>
      apply load32_store32_of_ne
      intro x y he
      have hx := x.isLt
      have hy := y.isLt
      bv_omega

/-- The distance between the stacks takes a word to the same word of the new stack. -/
theorem wordAt_add_stackOffset (initialSp : Word) (k : Nat) :
    wordAt initialSp k + stackOffset initialSp = wordAt kernelStackPos k := by
  simp only [wordAt, stackOffset]
  bv_omega

theorem newEsp_eq (h : oldEsp = wordAt initialSp n) :
    newEsp initialSp oldEsp = wordAt kernelStackPos n := by
  rw [h, newEsp]
  exact wordAt_add_stackOffset initialSp n

/-- One round of the loop, which only touches its own word. -/
theorem load32_relocated (mem : Word → Byte) (top : Word) {j : Nat} (hk : 4 * k ≤ top.toNat)
    (hj : 4 * j ≤ top.toNat) {m : Word → Byte}
    (hm : m = if load32 mem (wordAt top k) < initialSp ∧ load32 mem (wordAt top k) > oldEsp then
      store32 mem (wordAt top k) (load32 mem (wordAt top k) + stackOffset initialSp) else mem) :
    load32 m (wordAt top j) =
      if j = k then relocated initialSp oldEsp (load32 mem (wordAt top j))
      else load32 mem (wordAt top j) := by
  subst hm
  rw [relocated]
  by_cases hjk : j = k
  · rw [if_pos hjk, hjk]
    split
    · rw [load32_store32]
    · rfl
  · rw [if_neg hjk]
    split
    · rw [load32_store32_wordAt mem top _ hk hj, if_neg hjk]
    · rfl

/-- The loop, from word `k` down to the last but one of the `n` words. -/
theorem relocateFrom_spec (h : oldEsp = wordAt initialSp n) (hn : 4 * n ≤ kernelStackPos.toNat)
    {r : Nat} (hk0 : 0 < k) (hkr : k + r = n) {fuel : Nat} (hfuel : r < fuel)
    (mem : Word → Byte) :
    ∃ mem', relocateFrom initialSp oldEsp fuel (wordAt kernelStackPos k) mem = some mem' ∧
      (∀ j, 0 < j → j ≤ n → load32 mem' (wordAt kernelStackPos j) =
        if k ≤ j ∧ j < n then relocated initialSp oldEsp (load32 mem (wordAt kernelStackPos j))
        else load32 mem (wordAt kernelStackPos j)) ∧
      ∀ a : Word, a.toNat < (wordAt kernelStackPos n).toNat ∨ kernelStackPos.toNat ≤ a.toNat →
        mem' a = mem a := by
  have hpos : kernelStackPos.toNat = 0xFFFFF000 := by decide
  have hn' := toNat_wordAt kernelStackPos n hn
  induction r generalizing k fuel mem with
  | zero =>
      obtain ⟨fuel, rfl⟩ := Nat.exists_eq_add_of_lt hfuel
      obtain rfl : k = n := hkr
      refine ⟨mem, ?_, fun j _ hj => ?_, fun _ _ => rfl⟩
      · rw [relocateFrom, newEsp_eq h, if_neg (BitVec.lt_irrefl _)]
      · rw [if_neg (by omega)]
  | succ r ih =>
      obtain ⟨fuel, rfl⟩ : ∃ f, fuel = f + 1 := ⟨fuel - 1, by omega⟩
      have hk' := toNat_wordAt kernelStackPos k (by omega)
      have hgt : wordAt kernelStackPos k > newEsp initialSp oldEsp := by
        rw [newEsp_eq h, gt_iff_lt, BitVec.lt_def]
        omega
      rw [relocateFrom, if_pos hgt]
      simp only [wordAt_succ]
      generalize hm : (if load32 mem (wordAt kernelStackPos k) < initialSp ∧
        load32 mem (wordAt kernelStackPos k) > oldEsp then
          store32 mem (wordAt kernelStackPos k)
            (load32 mem (wordAt kernelStackPos k) + stackOffset initialSp) else mem) = m
      have hround : ∀ j ≤ n, load32 m (wordAt kernelStackPos j) =
          if j = k then relocated initialSp oldEsp (load32 mem (wordAt kernelStackPos j))
          else load32 mem (wordAt kernelStackPos j) := fun j hj =>
        load32_relocated mem kernelStackPos (by omega) (by omega) hm.symm
      obtain ⟨mem', hrun, hword, hout⟩ := ih (Nat.succ_pos k) (by omega)
        (show r < fuel by omega) m
      refine ⟨mem', hrun, fun j hj0 hj => ?_, fun a ha => (hout a ha).trans ?_⟩
      · rw [hword j hj0 hj, hround j hj]
        by_cases hjk : j = k
        · rw [if_neg (by omega), if_pos hjk, if_pos (by omega)]
        · rw [if_neg hjk]
          split
          · rw [if_pos (by omega)]
          · rw [if_neg (by omega)]
      · rw [← hm]
        split
        · apply store32_of_ne
          intro x he
          have hx := x.isLt
          bv_omega
        · rfl

/-! ## The copy -/

/-- The new stack, word by word. The last word is copied as it is. -/
structure Moved (initialSp oldEsp : Word) (mem mem' : Word → Byte) : Prop where
  word : ∀ k, 0 < k → 4 * k ≤ initialSp.toNat - oldEsp.toNat →
    load32 mem' (wordAt kernelStackPos k) =
      if 4 * k < initialSp.toNat - oldEsp.toNat then
        relocated initialSp oldEsp (load32 mem (wordAt initialSp k))
      else load32 mem (wordAt initialSp k)
  outside : ∀ a : Word,
    a.toNat < (newEsp initialSp oldEsp).toNat ∨ kernelStackPos.toNat ≤ a.toNat → mem' a = mem a

namespace BootStack

variable (h : BootStack initialSp oldEsp)
include h

theorem exists_words : ∃ n, oldEsp = wordAt initialSp n ∧ n ≤ 1024 ∧
    initialSp.toNat - oldEsp.toNat = 4 * n := by
  have hsize : kernelStackSize.toNat = 4096 := by decide
  have hle := h.le
  have hfits := h.fits
  obtain ⟨n, hn⟩ := h.words
  refine ⟨n, ?_, by omega, hn⟩
  rw [wordAt]
  bv_omega

/-- The call of `memcpy`: the words of the old stack in the new one, and nothing else. -/
theorem copied (mem : Word → Byte) (hold : oldEsp = wordAt initialSp n) (hn : n ≤ 1024) :
    ∃ m, memcpy mem (newEsp initialSp oldEsp) oldEsp (initialSp - oldEsp).toNat = m ∧
      (∀ k, 0 < k → k ≤ n →
        load32 m (wordAt kernelStackPos k) = load32 mem (wordAt initialSp k)) ∧
      ∀ a : Word, a.toNat < (newEsp initialSp oldEsp).toNat ∨ kernelStackPos.toNat ≤ a.toNat →
        m a = mem a := by
  have hpos : kernelStackPos.toNat = 0xFFFFF000 := by decide
  have hsize : kernelStackSize.toNat = 4096 := by decide
  have hbelow := h.below
  have hle := h.le
  have hn' : 4 * n ≤ kernelStackPos.toNat := by omega
  have hnew := newEsp_eq hold
  have hnew' := toNat_wordAt kernelStackPos n hn'
  have hlen : (initialSp - oldEsp).toNat = 4 * n := by
    rw [hold, wordAt]
    rw [hold, wordAt] at hle
    bv_omega
  have hcopy : ∀ a, memcpy mem (newEsp initialSp oldEsp) oldEsp (initialSp - oldEsp).toNat a =
      if (a - wordAt kernelStackPos n).toNat < 4 * n then
        mem (oldEsp + (a - wordAt kernelStackPos n)) else mem a := by
    intro a
    rw [hnew, hlen]
    apply memcpy_apply mem _ _ (by omega)
    intro i hi j hj he
    bv_omega
  refine ⟨_, rfl, fun k hk0 hk => ?_, fun a ha => ?_⟩
  · apply load32_eq_of_bytes
    intro x
    have hx := x.isLt
    have hdist := toNat_wordAt_sub x hn' hk
    rw [hcopy, if_pos (by omega), hold, wordAt_add_sub]
  · rw [hnew] at ha
    rw [hcopy, if_neg (by bv_omega)]

theorem moveStackWords_spec (mem : Word → Byte) :
    ∃ mem', moveStackWords initialSp oldEsp mem = some mem' ∧ Moved initialSp oldEsp mem mem' := by
  have hpos : kernelStackPos.toNat = 0xFFFFF000 := by decide
  obtain ⟨n, hold, hn, hlen⟩ := h.exists_words
  have hnew := newEsp_eq hold
  obtain ⟨m, hm, hword, hout⟩ := h.copied mem hold hn
  have hfirst : kernelStackPos - 4 = wordAt kernelStackPos 1 := by decide
  rw [moveStackWords, hm, hfirst]
  rcases Nat.eq_zero_or_pos n with rfl | hpos0
  · refine ⟨m, ?_, fun k hk0 hk => ?_, hout⟩
    · have hend : ¬ wordAt kernelStackPos 1 > wordAt kernelStackPos 0 := by decide
      have hfuel : loopBound = (loopBound - 1) + 1 := by decide
      rw [hfuel, relocateFrom, hnew, if_neg hend]
    · omega
  · have hfuel : n - 1 < loopBound := by
      rw [loopBound]
      omega
    obtain ⟨mem', hrun, hwords, hrest⟩ := relocateFrom_spec hold (by omega)
      Nat.one_pos (show 1 + (n - 1) = n by omega) hfuel m
    refine ⟨mem', hrun, fun k hk0 hk => ?_, fun a ha => ?_⟩
    · rw [hwords k hk0 (by omega), hword k hk0 (by omega), hlen]
      split
      · rw [if_pos (by omega)]
      · rw [if_neg (by omega)]
    · rw [hrest a (by rwa [← hnew]), hout a ha]

end BootStack

/-! ## The frames of the running functions -/

/-- The chain of frames from the frame pointer `b` to the frame pointer `outer`, with the return
addresses on its way. A frame lies above the word at `bottom` and has two words below `top`. -/
inductive Frames (mem : Word → Byte) (bottom top outer : Word) : Word → List Word → Prop
  | outermost : Frames mem bottom top outer outer []
  | frame {k : Nat} {rets : List Word} :
      0 < k → 4 * (k + 1) < top.toNat - bottom.toNat →
      Frames mem bottom top outer (load32 mem (wordAt top (k + 1))) rets →
      Frames mem bottom top outer (wordAt top (k + 1)) (load32 mem (wordAt top k) :: rets)

/-- A pointer to a word above the last one goes to the same word of the new stack. -/
theorem relocated_wordAt (hk0 : 0 < k) (hk : 4 * k < initialSp.toNat - oldEsp.toNat) :
    relocated initialSp oldEsp (wordAt initialSp k) = wordAt kernelStackPos k := by
  have hk' := toNat_wordAt initialSp k (by omega)
  have hin : wordAt initialSp k < initialSp ∧ wordAt initialSp k > oldEsp := by
    constructor
    · rw [BitVec.lt_def]
      omega
    · rw [gt_iff_lt, BitVec.lt_def]
      omega
  rw [relocated, if_pos hin]
  exact wordAt_add_stackOffset initialSp k

theorem BootStack.length_newEsp (h : BootStack initialSp oldEsp) :
    kernelStackPos.toNat - (newEsp initialSp oldEsp).toNat =
      initialSp.toNat - oldEsp.toNat := by
  have hpos : kernelStackPos.toNat = 0xFFFFF000 := by decide
  obtain ⟨n, hold, hn, hlen⟩ := h.exists_words
  have hnew := toNat_wordAt kernelStackPos n (by omega)
  rw [← newEsp_eq hold] at hnew
  omega

theorem Frames.moved (h : BootStack initialSp oldEsp) (hm : Moved initialSp oldEsp mem mem')
    {outer b : Word} {rets : List Word} (hf : Frames mem oldEsp initialSp outer b rets) :
    Frames mem' (newEsp initialSp oldEsp) kernelStackPos (relocated initialSp oldEsp outer)
      (relocated initialSp oldEsp b) (rets.map (relocated initialSp oldEsp)) := by
  induction hf with
  | outermost => exact .outermost
  | @frame k rets hk0 hk _ ih =>
      have hsaved := hm.word (k + 1) (Nat.succ_pos k) hk.le
      have hret := hm.word k hk0 (by omega)
      rw [if_pos hk] at hsaved
      rw [if_pos (by omega)] at hret
      rw [relocated_wordAt (Nat.succ_pos k) hk, List.map_cons, ← hret]
      apply Frames.frame hk0
      · rwa [h.length_newEsp]
      · rwa [hsaved]

/-- The frame pointer goes where `move_stack` sets it. -/
theorem Frames.relocated_eq {outer b : Word} {rets : List Word}
    (hf : Frames mem oldEsp initialSp outer b rets) (hne : rets ≠ []) :
    relocated initialSp oldEsp b = newEbp initialSp b := by
  cases hf with
  | outermost => exact absurd rfl hne
  | @frame k rets hk0 hk _ =>
      rw [relocated_wordAt (Nat.succ_pos k) hk]
      exact (wordAt_add_stackOffset initialSp (k + 1)).symm

/-! ## The whole function -/

/-- The loop does not change the other variables. -/
theorem relocate_of_relocateFrom {fuel : Nat} {s : MoveStack}
    (hoffset : s.offset = stackOffset initialSp) (hnew : s.newEsp = newEsp initialSp s.oldEsp)
    (hrun : relocateFrom initialSp s.oldEsp fuel s.i s.mem = some mem') :
    ∃ i tmp, relocate initialSp fuel s = some { s with mem := mem', i := i, tmp := tmp } := by
  induction fuel generalizing s with
  | zero => cases hrun
  | succ fuel ih =>
      rw [relocateFrom, ← hnew] at hrun
      by_cases hi : s.i > s.newEsp
      · rw [if_pos hi] at hrun
        rw [relocate, if_pos hi]
        by_cases htmp : load32 s.mem s.i < initialSp ∧ load32 s.mem s.i > s.oldEsp
        · simp only [if_pos htmp, ← hoffset] at hrun
          simp only [if_pos htmp]
          obtain ⟨i, tmp, hrest⟩ := ih (s := { s with
            tmp := load32 s.mem s.i
            mem := store32 s.mem s.i (load32 s.mem s.i + s.offset)
            i := s.i - 4 }) hoffset hnew hrun
          exact ⟨i, tmp, hrest⟩
        · simp only [if_neg htmp] at hrun
          simp only [if_neg htmp]
          obtain ⟨i, tmp, hrest⟩ := ih (s := { s with tmp := load32 s.mem s.i, i := s.i - 4 })
            hoffset hnew hrun
          exact ⟨i, tmp, hrest⟩
      · rw [if_neg hi] at hrun
        cases hrun
        rw [relocate, if_neg hi]
        exact ⟨s.i, s.tmp, rfl⟩

/-- `move_stack` writes its variables and the new stack. -/
theorem moveStack_of_words {esp : Word} (ebp : Word) {s : MoveStack}
    (hrun : moveStackWords initialSp esp s.mem = some mem') :
    ∃ s', moveStack initialSp esp ebp s = some s' ∧ s'.mem = mem' ∧
      s'.newEsp = newEsp initialSp esp ∧ s'.newEbp = newEbp initialSp ebp := by
  obtain ⟨i, tmp, hloop⟩ := relocate_of_relocateFrom (s := { s with
    mem := memcpy s.mem (newEsp initialSp esp) esp (initialSp - esp).toNat
    i := kernelStackPos - 4
    oldEsp := esp
    oldEbp := ebp
    offset := stackOffset initialSp
    newEsp := newEsp initialSp esp
    newEbp := newEbp initialSp ebp }) rfl rfl hrun
  exact ⟨_, hloop, rfl, rfl, rfl⟩

/-- `move_stack` ends, and of memory it writes the new stack alone. The words of the new stack
are those of the old one with the pointers into it moved along, except the word at `esp`, and
every chain of frames above that word is a chain of the new stack, from the new frame pointer
on. -/
theorem moveStack_moves {esp ebp : Word} (h : BootStack initialSp esp) (s : MoveStack) :
    ∃ s', moveStack initialSp esp ebp s = some s' ∧ s'.newEsp = newEsp initialSp esp ∧
      s'.newEbp = newEbp initialSp ebp ∧ Moved initialSp esp s.mem s'.mem ∧
      ∀ outer rets, Frames s.mem esp initialSp outer ebp rets → rets ≠ [] →
        Frames s'.mem s'.newEsp kernelStackPos (relocated initialSp esp outer) s'.newEbp
          (rets.map (relocated initialSp esp)) := by
  obtain ⟨mem', hwords, hmoved⟩ := h.moveStackWords_spec s.mem
  obtain ⟨s', hrun, rfl, hesp, hebp⟩ := moveStack_of_words ebp hwords
  refine ⟨s', hrun, hesp, hebp, hmoved, fun outer rets hf hne => ?_⟩
  rw [hesp, hebp, ← hf.relocated_eq hne]
  exact hf.moved h hmoved

/-- Six words below `0x9F000`: the frame of `kmain` and that of the function it called, which
has a pointer to a variable of `kmain`. -/
def sampleStack : Word → Byte :=
  store32 (store32 (store32 (store32 (fun _ => 0) 0x9EFFC 0x101234) 0x9EFF4 0x105678)
    0x9EFF0 0x9EFF8) 0x9EFEC 0x9EFFC

/-- Both frames are linked in the new stack, and the pointer goes to the same variable there. -/
theorem moveStack_moves_frames :
    ∃ s', moveStack 0x9F000 0x9EFE8 0x9EFF0 ⟨sampleStack, 0, 0, 0, 0, 0, 0, 0⟩ = some s' ∧
      Frames s'.mem 0xFFFFEFE8 kernelStackPos 0 0xFFFFEFF0 [0x105678, 0x101234] ∧
      load32 s'.mem 0xFFFFEFEC = 0xFFFFEFFC := by
  have hboot : BootStack 0x9F000 0x9EFE8 :=
    { le := by decide
      words := by decide
      fits := by decide
      below := by decide }
  have hframes : Frames sampleStack 0x9EFE8 0x9F000 0 (wordAt 0x9F000 4)
      [load32 sampleStack (wordAt 0x9F000 3), load32 sampleStack (wordAt 0x9F000 1)] := by
    apply Frames.frame (k := 3) (by decide) (by decide)
    have hsaved : load32 sampleStack (wordAt 0x9F000 (3 + 1)) = wordAt 0x9F000 2 := by decide
    rw [hsaved]
    apply Frames.frame (k := 1) (by decide) (by decide)
    have houter : load32 sampleStack (wordAt 0x9F000 (1 + 1)) = 0 := by decide
    rw [houter]
    exact .outermost
  obtain ⟨s', hrun, hesp, hebp, hmoved, hall⟩ :=
    moveStack_moves hboot ⟨sampleStack, 0, 0, 0, 0, 0, 0, 0⟩
  refine ⟨s', hrun, ?_, ?_⟩
  · have hmoved := hall _ _ hframes (List.cons_ne_nil _ _)
    rw [hesp, hebp] at hmoved
    exact hmoved
  · have hword := hmoved.word 5 (by decide) (by decide)
    exact hword.trans (by decide)

end Jkos.Task
