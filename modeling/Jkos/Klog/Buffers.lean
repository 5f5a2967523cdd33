import Jkos.Klog.Printf
import Mathlib.Data.List.Basic

/-!
# What the conversions leave in the buffers

Every loop of `u2s` and of `%p` and `%f` stays inside its buffer and leaves a string there.
-/

namespace Jkos.Klog

variable {size off len k : Nat} {buf : Nat → Byte} {l str : List Byte}

/-- The bytes lie in the buffer from an index on. -/
def Stored (buf : Nat → Byte) (off : Nat) (l : List Byte) : Prop :=
  ∀ i (h : i < l.length), buf (off + i) = l[i]

/-- A string with its terminator lies in the buffer from an index on. -/
structure Terminated (size : Nat) (buf : Nat → Byte) (k : Nat) (str : List Byte) : Prop where
  stored : Stored buf k str
  zero_notMem : (0 : Byte) ∉ str
  zero : buf (k + str.length) = 0
  lt : k + str.length < size

theorem write_ok (h : k < size) (b : Byte) :
    write size buf k b = .ok (Function.update buf k b) := if_pos h

theorem read_ok (h : k < size) : read size buf k = .ok (buf k) := if_pos h

theorem writeAll_ok (size : Nat) (buf : Nat → Byte) (off : Nat) (l : List Byte)
    (hle : off + l.length ≤ size) :
    ∃ buf', writeAll size buf off l = .ok buf' ∧ Stored buf' off l ∧
      ∀ j, j < off ∨ off + l.length ≤ j → buf' j = buf j := by
  induction l generalizing buf off with
  | nil => exact ⟨buf, rfl, fun i h => absurd h (Nat.not_lt_zero i), fun _ _ => rfl⟩
  | cons b l ih =>
      rw [List.length_cons] at hle
      obtain ⟨buf', hrun, hstored, hrest⟩ := ih (Function.update buf off b) (off + 1)
        (by omega)
      refine ⟨buf', ?_, ?_, ?_⟩
      · rw [writeAll, write_ok (by omega)]
        exact hrun
      · intro i hi
        cases i with
        | zero =>
            rw [Nat.add_zero, hrest off (.inl (Nat.lt_succ_self off)), Function.update_self]
            rfl
        | succ i =>
            have htail := hstored i (by simpa using hi)
            rwa [show off + (i + 1) = off + 1 + i by omega]
      · intro j hj
        rw [List.length_cons] at hj
        rw [hrest j (by omega), Function.update_of_ne (by omega)]

/-- `strcpy` of a string that fits. -/
theorem strcpy_ok (size : Nat) (buf : Nat → Byte) (str : List Byte) (hlt : str.length < size) (hstr : (0 : Byte) ∉ str) :
    ∃ buf', strcpy size buf str = .ok buf' ∧ Terminated size buf' 0 str ∧
      ∀ j, str.length < j → buf' j = buf j := by
  obtain ⟨buf', hrun, hstored, hrest⟩ := writeAll_ok size buf 0 (str ++ [0])
    (by simpa using Nat.succ_le_of_lt hlt)
  refine ⟨buf', hrun, ⟨fun i hi => ?_, hstr, ?_, by omega⟩, fun j hj => ?_⟩
  · rw [hstored i (by simp; omega), List.getElem_append_left hi]
  · rw [hstored str.length (by simp)]
    simp
  · exact hrest j (.inr (by simpa using Nat.succ_le_of_lt hj))

/-- The loop of `flush` finds the string, and stops at its terminator. -/
theorem Terminated.scan (h : Terminated size buf k str) :
    scan size buf k = .ok (str, k + str.length) := by
  induction str generalizing k with
  | nil =>
      have hzero : buf k = 0 := h.zero
      have hlt : k < size := h.lt
      rw [Klog.scan, if_pos hlt, if_pos hzero]
      rfl
  | cons b str ih =>
      have hlt := h.lt
      rw [List.length_cons] at hlt
      have hhead : buf k = b := h.stored 0 (Nat.zero_lt_succ _)
      have hne : b ≠ 0 := fun hb => h.zero_notMem (hb ▸ List.mem_cons_self)
      have hzero := h.zero
      have htail : Terminated size buf (k + 1) str := by
        refine ⟨fun i hi => ?_, fun hmem => h.zero_notMem (List.mem_cons_of_mem _ hmem), ?_,
          by omega⟩
        · have := h.stored (i + 1) (by simpa using hi)
          rwa [show k + 1 + i = k + (i + 1) by omega]
        · rwa [List.length_cons, show k + (str.length + 1) = k + 1 + str.length by omega] at hzero
      rw [Klog.scan, if_pos (by omega), hhead, if_neg hne, ih htail]
      simp only [List.length_cons]
      rw [show k + 1 + str.length = k + (str.length + 1) by omega]
      rfl

/-- The loop that swaps bytes turns the first `len` bytes around. -/
theorem reverseLoop_ok (buf : Nat → Byte) (hsize : len ≤ size) (hk : 2 * k ≤ len) :
    ∃ buf', reverseLoop size buf len k = .ok buf' ∧
      ∀ j, buf' j = if j < k ∨ len - k ≤ j ∧ j < len then buf (len - 1 - j) else buf j := by
  induction k generalizing buf with
  | zero =>
      refine ⟨buf, rfl, fun j => ?_⟩
      rw [if_neg (by omega)]
  | succ k ih =>
      let buf₁ := Function.update (Function.update buf k (buf (len - 1 - k))) (len - 1 - k) (buf k)
      obtain ⟨buf', hrun, hbuf'⟩ := ih buf₁ (by omega)
      refine ⟨buf', ?_, fun j => ?_⟩
      · rw [reverseLoop, read_ok (by omega), read_ok (by omega)]
        simp only [bind, Except.bind]
        rw [write_ok (by omega)]
        simp only
        rw [write_ok (by omega)]
        exact hrun
      · rw [hbuf']
        by_cases hlow : j = k
        · subst hlow
          rw [if_neg (by omega), if_pos (by omega)]
          simp only [buf₁]
          rw [Function.update_of_ne (by omega), Function.update_self]
        · by_cases hhigh : j = len - 1 - k
          · subst hhigh
            rw [if_neg (by omega), if_pos (by omega)]
            simp only [buf₁]
            rw [Function.update_self, show len - 1 - (len - 1 - k) = k by omega]
          · by_cases hin : j < k ∨ len - k ≤ j ∧ j < len
            · rw [if_pos hin, if_pos (by omega)]
              simp only [buf₁]
              rw [Function.update_of_ne (by omega), Function.update_of_ne (by omega)]
            · rw [if_neg hin, if_neg (by omega)]
              simp only [buf₁]
              rw [Function.update_of_ne hhigh, Function.update_of_ne hlow]

/-- The digits of a loop that goes from the last one to the first are turned around. -/
theorem Stored.reverseLoop (size : Nat) (h : Stored buf 0 l) (hsize : l.length ≤ size) :
    ∃ buf', reverseLoop size buf l.length (l.length / 2) = .ok buf' ∧ Stored buf' 0 l.reverse := by
  obtain ⟨buf', hrun, hbuf'⟩ := reverseLoop_ok buf hsize (k := l.length / 2) (by omega)
  refine ⟨buf', hrun, fun i hi => ?_⟩
  rw [List.length_reverse] at hi
  have hmirror := h (l.length - 1 - i) (by omega)
  rw [Nat.zero_add] at hmirror
  rw [Nat.zero_add, hbuf', List.getElem_reverse, ← hmirror]
  split
  · rfl
  · next hmiddle =>
      -- the byte in the middle stays
      congr 1
      omega

/-- A string is built up at the end. -/
theorem Stored.append_singleton (h : Stored buf off l) (b : Byte) :
    Stored (Function.update buf (off + l.length) b) off (l ++ [b]) := by
  intro i hi
  rw [List.length_append, List.length_singleton] at hi
  by_cases hlast : i = l.length
  · subst hlast
    simp
  · have hlt : i < l.length := by omega
    rw [Function.update_of_ne (by omega), List.getElem_append_left hlt, h i hlt]

/-- The terminator is written behind the string. -/
theorem Stored.terminate (size : Nat) (h : Stored buf 0 l) (hlt : l.length < size) (hl : (0 : Byte) ∉ l) :
    ∃ buf', write size buf l.length 0 = .ok buf' ∧ Terminated size buf' 0 l := by
  refine ⟨_, write_ok hlt 0, ⟨fun i hi => ?_, hl, ?_, by omega⟩⟩
  · rw [Function.update_of_ne (by omega), h i hi]
  · rw [Nat.zero_add, Function.update_self]

/-! ## Numerals -/

/-- The numeral of a number, most significant digit first. -/
def digits (base n : Nat) : List Byte :=
  (Nat.toDigits base n).map fun c => BitVec.ofNat 8 c.toNat

theorem digitByte_eq {d : Word} (hd : d.toNat < 16) :
    digitByte d = BitVec.ofNat 8 (Nat.digitChar d.toNat).toNat := by
  have hall : ∀ i : Fin 16, digitByte (BitVec.ofNat 32 i.val) =
      BitVec.ofNat 8 (Nat.digitChar i.val).toNat := by decide
  have hval := hall ⟨d.toNat, hd⟩
  rwa [BitVec.ofNat_toNat, BitVec.setWidth_eq] at hval

theorem digitChar_ne_zero {d : Nat} (hd : d < 16) :
    BitVec.ofNat 8 (Nat.digitChar d).toNat ≠ 0 := by
  have hall : ∀ i : Fin 16, BitVec.ofNat 8 (Nat.digitChar i.val).toNat ≠ 0 := by decide
  exact hall ⟨d, hd⟩

theorem digits_of_lt {base n : Nat} (h : n < base) :
    digits base n = [BitVec.ofNat 8 (Nat.digitChar n).toNat] := by
  rw [digits, Nat.toDigits_of_lt_base h, List.map_singleton]

theorem digits_of_le {base n : Nat} (hbase : 1 < base) (h : base ≤ n) :
    digits base n =
      digits base (n / base) ++ [BitVec.ofNat 8 (Nat.digitChar (n % base)).toNat] := by
  rw [digits, Nat.toDigits_of_base_le hbase h, List.map_append, List.map_singleton, digits]

theorem zero_notMem_digits {base : Nat} (hbase : 1 < base) (hle : base ≤ 16) (n : Nat) :
    (0 : Byte) ∉ digits base n := by
  induction n using Nat.strongRecOn with
  | _ n ih =>
      by_cases h : n < base
      · rw [digits_of_lt h, List.mem_singleton]
        exact (digitChar_ne_zero (by omega)).symm
      · have hn : base ≤ n := Nat.not_lt.mp h
        rw [digits_of_le hbase hn, List.mem_append, List.mem_singleton, not_or]
        have hdigit : n % base < base := Nat.mod_lt n (by omega)
        exact ⟨ih _ (Nat.div_lt_self (by omega) hbase), (digitChar_ne_zero (by omega)).symm⟩

theorem length_digits {base n k : Nat} (hbase : 1 < base) (hk : 0 < k) (h : n < base ^ k) :
    (digits base n).length ≤ k := by
  rw [digits, List.length_map]
  exact (Nat.length_toDigits_le_iff hbase hk).mpr h

/-- The loop of `u2s` yields the digits of a number that is not zero, the last one first. -/
theorem u2sDigits_ok {base n : Word} {ret : Nat → Byte} (hbase : 1 < base.toNat)
    (hle : base.toNat ≤ 16) (hn : n ≠ 0) (hret : Stored ret 0 l)
    (hlen : l.length + (digits base.toNat n.toNat).length ≤ retSize) :
    ∃ ret', u2sDigits base n ret l.length =
        .ok (ret', (l ++ (digits base.toNat n.toNat).reverse).length) ∧
      Stored ret' 0 (l ++ (digits base.toNat n.toNat).reverse) := by
  induction hm : n.toNat using Nat.strongRecOn generalizing n ret l with
  | _ m ih =>
      subst hm
      have hmod : (n % base).toNat = n.toNat % base.toNat := BitVec.toNat_umod
      have hdiv : (n / base).toNat = n.toNat / base.toNat := BitVec.toNat_udiv
      have hdigit : n.toNat % base.toNat < base.toNat := Nat.mod_lt _ (by omega)
      have hstep := hret.append_singleton (digitByte (n % base))
      rw [Nat.zero_add, digitByte_eq (by omega), hmod] at hstep
      have hpos : 0 < n.toNat := by
        have : n.toNat ≠ 0 := fun h => hn (BitVec.eq_of_toNat_eq h)
        omega
      by_cases hlast : n.toNat < base.toNat
      · rw [digits_of_lt hlast, List.length_singleton] at hlen
        have hquot : n / base = 0 := by
          apply BitVec.eq_of_toNat_eq
          rw [hdiv, Nat.div_eq_of_lt hlast]
          rfl
        rw [Nat.mod_eq_of_lt hlast, ← digits_of_lt hlast] at hstep
        rw [digits_of_lt hlast, List.reverse_singleton, ← digits_of_lt hlast]
        refine ⟨_, ?_, hstep⟩
        rw [u2sDigits, if_neg hn, if_pos (by omega), hquot, u2sDigits, if_pos rfl,
          digitByte_eq (by omega), hmod, Nat.mod_eq_of_lt hlast, List.length_append,
          digits_of_lt hlast]
        rfl
      · have hge : base.toNat ≤ n.toNat := Nat.not_lt.mp hlast
        rw [digits_of_le hbase hge, List.length_append, List.length_singleton] at hlen
        have hquot : n / base ≠ 0 := by
          intro h
          have hzero := congrArg BitVec.toNat h
          rw [hdiv] at hzero
          have := Nat.div_pos hge (by omega)
          exact absurd hzero (by
            change n.toNat / base.toNat ≠ 0
            omega)
        have hless : (n / base).toNat < n.toNat := by
          rw [hdiv]
          exact Nat.div_lt_self hpos hbase
        obtain ⟨ret', hrun, hstored⟩ := ih _ hless hquot hstep
          (by rw [List.length_append, List.length_singleton, hdiv]; omega) rfl
        rw [hdiv] at hrun hstored
        have hrev : (digits base.toNat n.toNat).reverse =
            BitVec.ofNat 8 (Nat.digitChar (n.toNat % base.toNat)).toNat ::
              (digits base.toNat (n.toNat / base.toNat)).reverse := by
          rw [digits_of_le hbase hge, List.reverse_append]
          rfl
        rw [List.append_assoc, List.singleton_append, ← hrev] at hrun hstored
        refine ⟨ret', ?_, hstored⟩
        rw [u2sDigits, if_neg hn, if_pos (by omega), digitByte_eq (by omega), hmod]
        rwa [List.length_append, List.length_singleton] at hrun

/-- `u2s` leaves the numeral in its buffer. -/
theorem u2s_ok {n base : Word} (ret : Nat → Byte) (hbase : 1 < base.toNat)
    (hle : base.toNat ≤ 16) (hlen : (digits base.toNat n.toNat).length < retSize) :
    ∃ ret', u2s n base ret = .ok ret' ∧
      Terminated retSize ret' 0 (digits base.toNat n.toNat) := by
  by_cases hn : n = 0
  · obtain ⟨ret', hrun, hstr, -⟩ := strcpy_ok retSize ret [0x30]
      (by decide) (by decide)
    refine ⟨ret', by rw [u2s, if_pos hn, hrun], ?_⟩
    have hzero : n.toNat = 0 := by
      rw [hn]
      rfl
    rw [hzero, digits_of_lt (by omega)]
    exact hstr
  · have hnil : Stored ret 0 [] := fun i h => absurd h (Nat.not_lt_zero i)
    obtain ⟨ret₁, hdigits, hstored₁⟩ := u2sDigits_ok hbase hle hn hnil (by simpa using hlen.le)
    rw [List.nil_append] at hdigits hstored₁
    obtain ⟨ret₂, hreverse, hstored₂⟩ := hstored₁.reverseLoop retSize
      (by simpa using hlen.le)
    rw [List.reverse_reverse] at hstored₂
    obtain ⟨ret₃, hwrite, hstr⟩ := hstored₂.terminate retSize hlen (zero_notMem_digits hbase hle _)
    refine ⟨ret₃, ?_, hstr⟩
    rw [u2s, if_neg hn]
    rw [List.length_nil] at hdigits
    simp only [hdigits, hreverse, bind, Except.bind]
    rwa [List.length_reverse]

/-- A digit of `%p`. -/
def upperDigit (d : Nat) : Byte := BitVec.ofNat 8 (if d < 10 then 0x30 + d else 0x41 + (d - 10))

/-- The eight digits of `%p`. -/
def pointerDigits (val : Word) : List Byte :=
  (List.range 8).map fun i => upperDigit (val.toNat / 16 ^ (7 - i) % 16)

theorem upperDigit_ne_zero {d : Nat} (hd : d < 16) : upperDigit d ≠ 0 := by
  have hall : ∀ i : Fin 16, upperDigit i.val ≠ 0 := by decide
  exact hall ⟨d, hd⟩

theorem upperDigit_eq {x : Word} (hx : x.toNat < 16) :
    (if x < 10 then x + 0x30 else x + 0x41 - 10).setWidth 8 = upperDigit x.toNat := by
  have hall : ∀ i : Fin 16,
      (if BitVec.ofNat 32 i.val < 10 then BitVec.ofNat 32 i.val + 0x30
        else BitVec.ofNat 32 i.val + 0x41 - 10).setWidth 8 = upperDigit i.val := by decide
  have hval := hall ⟨x.toNat, hx⟩
  rwa [BitVec.ofNat_toNat, BitVec.setWidth_eq] at hval

/-- What `%p` prints. -/
def pointerText (val : Word) : List Byte := pointerPrefix ++ pointerDigits val

@[simp] theorem length_pointerText (val : Word) : (pointerText val).length = 11 := by
  simp [pointerText, pointerPrefix, pointerDigits]

theorem zero_notMem_pointerText (val : Word) : (0 : Byte) ∉ pointerText val := by
  rw [pointerText, List.mem_append, not_or]
  refine ⟨by decide, fun hmem => ?_⟩
  obtain ⟨i, -, hi⟩ := List.mem_map.mp hmem
  exact upperDigit_ne_zero (Nat.mod_lt _ (by decide)) hi

/-- The loop of `%p` yields the digits behind those that are there. -/
theorem pointerLoop_ok {bufMem : Nat → Byte} (val : Word) (hk : k ≤ 8)
    (h : Stored bufMem 0 (pointerPrefix ++ (pointerDigits val).take (8 - k))) :
    ∃ buf', pointerLoop val bufMem k = .ok buf' ∧ Stored buf' 0 (pointerText val) := by
  have hlen : (pointerDigits val).length = 8 := by simp [pointerDigits]
  induction k generalizing bufMem with
  | zero =>
      rw [List.take_of_length_le (by omega)] at h
      exact ⟨bufMem, rfl, h⟩
  | succ k ih =>
      have hdigit : (pointerDigits val)[8 - (k + 1)] = upperDigit (val.toNat / 16 ^ k % 16) := by
        simp only [pointerDigits, List.getElem_map, List.getElem_range]
        rw [show 7 - (8 - (k + 1)) = k by omega]
      have htake : (pointerDigits val).take (8 - k) = (pointerDigits val).take (8 - (k + 1)) ++
          [upperDigit (val.toNat / 16 ^ k % 16)] := by
        rw [show 8 - k = 8 - (k + 1) + 1 by omega, List.take_succ_eq_append_getElem (by omega),
          hdigit]
      have hstep := h.append_singleton (upperDigit (val.toNat / 16 ^ k % 16))
      rw [List.append_assoc, ← htake, List.length_append, List.length_take, hlen] at hstep
      obtain ⟨buf', hrun, hstored⟩ := ih (by omega) hstep
      refine ⟨buf', ?_, hstored⟩
      have hx : ((val >>> (k <<< 2)) &&& 0xF).toNat = val.toNat / 16 ^ k % 16 := by
        have hmask := Nat.and_two_pow_sub_one_eq_mod (val.toNat >>> (k <<< 2)) 4
        rw [BitVec.toNat_and, BitVec.toNat_ushiftRight]
        refine hmask.trans ?_
        rw [Nat.shiftRight_eq_div_pow, Nat.shiftLeft_eq, Nat.mul_comm, Nat.pow_mul]
      have hindex : 0 + (pointerPrefix.length + min (8 - (k + 1)) 8) = 10 - k := by
        simp only [pointerPrefix, List.length_cons, List.length_nil]
        omega
      rw [hindex] at hrun
      simp only [pointerLoop]
      rw [upperDigit_eq (by rw [hx]; exact Nat.mod_lt _ (by decide)), hx,
        write_ok (by simp only [bufMemSize]; omega)]
      exact hrun

/-- What `%p` does to its buffer. -/
theorem pointer_ok (val : Word) (bufMem : Nat → Byte) :
    ∃ buf', (do
        let bufMem ← strcpy bufMemSize bufMem pointerPrefix
        let bufMem ← pointerLoop val bufMem 8
        write bufMemSize bufMem 11 0) = .ok buf' ∧
      Terminated bufMemSize buf' 0 (pointerText val) := by
  obtain ⟨buf₁, hcopy, hstr, -⟩ := strcpy_ok bufMemSize bufMem pointerPrefix
    (by decide) (by decide)
  obtain ⟨buf₂, hloop, hstored⟩ := pointerLoop_ok val (Nat.le_refl 8)
    (by simpa using hstr.stored)
  obtain ⟨buf₃, hwrite, hdone⟩ := hstored.terminate bufMemSize (by simp [bufMemSize])
    (zero_notMem_pointerText val)
  rw [length_pointerText] at hwrite
  refine ⟨buf₃, ?_, hdone⟩
  simp only [hcopy, hloop, bind, Except.bind]
  exact hwrite

/-! ## Floating point numbers -/

section Floats

variable {F : Type} (ops : FloatOps F) {f : F} {m : Nat} {bufMem : Nat → Byte}

/-- The digits before the point, the last one first, and at most `k` of them. -/
def intDigits : Nat → F → List Byte
  | 0, _ => []
  | k + 1, f =>
      if ops.geOne f then ops.digit (ops.div10 f) :: intDigits k (ops.div10 f) else []

/-- The digits behind the point. -/
def fractionDigits : Nat → F → List Byte
  | 0, _ => []
  | k + 1, f => ops.digit f :: fractionDigits k (ops.mul10 f)

/-- The room of `buf_mem` for digits before the point. -/
def maxIntDigits : Nat := 122

/-- The part before the point has few enough digits. -/
def FewDigits (f : F) : Prop :=
  ops.ltOne f = true ∨ ∃ m, m < maxIntDigits + 1 ∧ ops.geOne (ops.div10^[m] f) = false

instance (f : F) : Decidable (FewDigits ops f) := inferInstanceAs (Decidable (_ ∨ _))

/-- What `%f` prints for a number that is not negative. -/
def floatString (f : F) : List Byte :=
  (if ops.ltOne f then [0x30] else (intDigits ops maxIntDigits f).reverse) ++
    0x2E :: fractionDigits ops floatPrecesion f

theorem length_intDigits_le (k : Nat) (f : F) : (intDigits ops k f).length ≤ k := by
  induction k generalizing f with
  | zero => exact Nat.le_refl 0
  | succ k ih =>
      rw [intDigits]
      split
      · exact Nat.succ_le_succ (ih _)
      · exact Nat.zero_le _

@[simp] theorem length_fractionDigits (k : Nat) (f : F) :
    (fractionDigits ops k f).length = k := by
  induction k generalizing f with
  | zero => rfl
  | succ k ih => rw [fractionDigits, List.length_cons, ih]

theorem zero_notMem_intDigits (k : Nat) (hf : ops.ltZero f = false) :
    (0 : Byte) ∉ intDigits ops k f := by
  induction k generalizing f with
  | zero => exact List.not_mem_nil
  | succ k ih =>
      have hdiv := ops.ltZero_div10 f hf
      rw [intDigits]
      split
      · rw [List.mem_cons, not_or]
        exact ⟨(ops.digit_ne_zero _ hdiv).symm, ih hdiv⟩
      · exact List.not_mem_nil

theorem zero_notMem_fractionDigits (k : Nat) (hf : ops.ltZero f = false) :
    (0 : Byte) ∉ fractionDigits ops k f := by
  induction k generalizing f with
  | zero => exact List.not_mem_nil
  | succ k ih =>
      rw [fractionDigits, List.mem_cons, not_or]
      exact ⟨(ops.digit_ne_zero f hf).symm, ih (ops.ltZero_mul10 f hf)⟩

theorem zero_notMem_floatString (hf : ops.ltZero f = false) : (0 : Byte) ∉ floatString ops f := by
  rw [floatString, List.mem_append, List.mem_cons, not_or, not_or]
  refine ⟨?_, by decide, zero_notMem_fractionDigits ops _ hf⟩
  split
  · decide
  · rw [List.mem_reverse]
    exact zero_notMem_intDigits ops _ hf

/-- Where the loop over the digits comes to an end inside the buffer. -/
theorem floatDigits_ok (hm : ops.geOne (ops.div10^[m] f) = false) (hmk : m ≤ k)
    (hstored : Stored bufMem 0 l) (hsize : l.length + m ≤ bufMemSize) :
    ∃ buf', floatDigits ops f bufMem l.length = .ok (buf', (l ++ intDigits ops k f).length) ∧
      Stored buf' 0 (l ++ intDigits ops k f) := by
  induction m generalizing f k l bufMem with
  | zero =>
      have hone : ops.geOne f = false := hm
      have hnil : intDigits ops k f = [] := by
        cases k with
        | zero => rfl
        | succ k => rw [intDigits, if_neg (by simp [hone])]
      rw [floatDigits, if_neg (by simp [hone]), hnil, List.append_nil]
      exact ⟨bufMem, rfl, hstored⟩
  | succ m ih =>
      cases hone : ops.geOne f with
      | false =>
          have hnil : intDigits ops k f = [] := by
            cases k with
            | zero => rfl
            | succ k => rw [intDigits, if_neg (by simp [hone])]
          rw [floatDigits, if_neg (by simp [hone]), hnil, List.append_nil]
          exact ⟨bufMem, rfl, hstored⟩
      | true =>
          obtain ⟨k, rfl⟩ : ∃ k', k = k' + 1 := ⟨k - 1, by omega⟩
          rw [Function.iterate_succ_apply] at hm
          obtain ⟨buf', hrun, hstored'⟩ := ih hm (Nat.le_of_succ_le_succ hmk)
            (hstored.append_singleton (ops.digit (ops.div10 f)))
            (by rw [List.length_append, List.length_singleton]; omega)
          rw [List.append_assoc, List.singleton_append, List.length_append,
            List.length_singleton, Nat.zero_add] at hrun
          rw [List.append_assoc, List.singleton_append] at hstored'
          refine ⟨buf', ?_, by rwa [intDigits, if_pos hone]⟩
          rw [floatDigits, if_pos hone, if_pos (by omega), hrun, intDigits, if_pos hone]

/-- Where it ends, the number of digits is the number of divisions. -/
theorem geOne_of_floatDigits {n n' : Nat} {buf' : Nat → Byte}
    (h : floatDigits ops f bufMem n = .ok (buf', n')) :
    ∃ m, n' = n + m ∧ ops.geOne (ops.div10^[m] f) = false := by
  fun_induction floatDigits ops f bufMem n with
  | case1 f bufMem n _ _ _ ih =>
      obtain ⟨m, rfl, hm⟩ := ih h
      exact ⟨m + 1, by omega, hm⟩
  | case2 => cases h
  | case3 f bufMem n hone =>
      cases h
      exact ⟨0, rfl, by simpa using hone⟩

theorem floatFraction_ok (hstored : Stored bufMem 0 l) (hsize : l.length + k ≤ bufMemSize) :
    ∃ buf', floatFraction ops f bufMem l.length k = .ok buf' ∧
      Stored buf' 0 (l ++ fractionDigits ops k f) := by
  induction k generalizing f l bufMem with
  | zero => exact ⟨bufMem, rfl, by rwa [fractionDigits, List.append_nil]⟩
  | succ k ih =>
      obtain ⟨buf', hrun, hstored'⟩ := ih (f := ops.mul10 f)
        (hstored.append_singleton (ops.digit f))
        (by rw [List.length_append, List.length_singleton]; omega)
      rw [List.length_append, List.length_singleton, Nat.zero_add] at hrun
      rw [List.append_assoc, List.singleton_append] at hstored'
      refine ⟨buf', ?_, hstored'⟩
      rw [floatFraction, write_ok (by omega)]
      exact hrun

/-- The digits before the point, turned around, whichever branch puts them into the buffer. -/
theorem floatHead_ok (bufMem : Nat → Byte) (hfew : FewDigits ops f) :
    ∃ (l : List Byte) (buf₁ : Nat → Byte) (buf' : Nat → Byte),
      floatHead ops f bufMem = .ok (buf₁, l.length) ∧
      reverseLoop bufMemSize buf₁ l.length (l.length / 2) = .ok buf' ∧
      Stored buf' 0 (if ops.ltOne f then [0x30] else (intDigits ops maxIntDigits f).reverse) ∧
      l.length = (if ops.ltOne f then [0x30] else (intDigits ops maxIntDigits f).reverse).length ∧
      l.length ≤ maxIntDigits := by
  have hnil : Stored bufMem 0 [] := fun i h => absurd h (Nat.not_lt_zero i)
  rw [floatHead]
  cases hone : ops.ltOne f with
  | true =>
      have hstored := hnil.append_singleton 0x30
      rw [List.nil_append] at hstored
      obtain ⟨buf', hrun, hstored'⟩ := hstored.reverseLoop bufMemSize (by decide)
      exact ⟨[0x30], _, buf', rfl, hrun, hstored', rfl, by decide⟩
  | false =>
      obtain ⟨m, hlt, hm⟩ := hfew.resolve_left (by simp [hone])
      obtain ⟨buf₁, hrun, hstored⟩ := floatDigits_ok ops hm (Nat.le_of_lt_succ hlt) hnil
        (by simp only [bufMemSize, maxIntDigits, List.length_nil] at *; omega)
      rw [List.nil_append] at hrun hstored
      have hlen := length_intDigits_le ops maxIntDigits f
      obtain ⟨buf', hreverse, hstored'⟩ := hstored.reverseLoop bufMemSize
        (by simp only [bufMemSize, maxIntDigits] at *; omega)
      exact ⟨_, buf₁, buf', hrun, hreverse, hstored', by simp, hlen⟩

/-- `%f` of a number with few digits. -/
theorem floatText_ok (bufMem : Nat → Byte) (hf : ops.ltZero f = false) (hfew : FewDigits ops f) :
    ∃ buf', floatText ops f bufMem = .ok buf' ∧
      Terminated bufMemSize buf' 0 (floatString ops f) := by
  obtain ⟨l, buf₁, buf₂, hdigits, hreverse, hstored, hlen, hle⟩ := floatHead_ok ops bufMem hfew
  have hpoint := hstored.append_singleton 0x2E
  rw [Nat.zero_add, ← hlen] at hpoint
  obtain ⟨buf₃, hfraction, hstored₃⟩ := floatFraction_ok ops (f := f) (k := floatPrecesion) hpoint
    (by
      rw [List.length_append, List.length_singleton, ← hlen]
      simp only [bufMemSize, maxIntDigits, floatPrecesion] at *
      omega)
  rw [List.append_assoc, List.singleton_append] at hstored₃
  have htotal : (floatString ops f).length = l.length + 1 + floatPrecesion := by
    rw [floatString, List.length_append, ← hlen, List.length_cons, length_fractionDigits]
    omega
  have hroom : l.length + 1 + floatPrecesion < bufMemSize := by
    simp only [bufMemSize, maxIntDigits, floatPrecesion] at *
    omega
  obtain ⟨buf₄, hwrite, hstr⟩ := Stored.terminate bufMemSize hstored₃
    (by rw [← floatString, htotal]; exact hroom) (zero_notMem_floatString ops hf)
  refine ⟨buf₄, ?_, hstr⟩
  rw [← floatString, htotal] at hwrite
  rw [List.length_append, List.length_singleton, ← hlen] at hfraction
  simp only [floatText, hdigits, hreverse, bind, Except.bind]
  rw [write_ok (by omega)]
  simp only [hfraction]
  exact hwrite

theorem exists_of_bind {α β : Type} {x : Except PrintFault α} {g : α → Except PrintFault β}
    {b : β} (h : x >>= g = .ok b) : ∃ a, x = .ok a ∧ g a = .ok b := by
  cases x with
  | error e => cases h
  | ok a => exact ⟨a, rfl, h⟩

/-- The result of `write` says that there was room. -/
theorem lt_of_write {b : Byte} {buf' : Nat → Byte} (h : write size buf k b = .ok buf') :
    k < size := by
  by_contra hge
  rw [write, if_neg hge] at h
  cases h

/-- Only a number with few digits fits. -/
theorem fewDigits_of_floatText {buf' : Nat → Byte} (h : floatText ops f bufMem = .ok buf') :
    FewDigits ops f := by
  obtain ⟨⟨buf₁, n⟩, hdigits, h⟩ := exists_of_bind h
  obtain ⟨buf₂, -, h⟩ := exists_of_bind h
  obtain ⟨buf₃, -, h⟩ := exists_of_bind h
  obtain ⟨buf₄, -, h⟩ := exists_of_bind h
  have hroom := lt_of_write h
  cases hone : ops.ltOne f with
  | true => exact .inl hone
  | false =>
      rw [floatHead, hone, if_neg Bool.false_ne_true] at hdigits
      obtain ⟨m, hn, hm⟩ := geOne_of_floatDigits ops hdigits
      refine .inr ⟨m, ?_, hm⟩
      simp only [bufMemSize, maxIntDigits, floatPrecesion] at *
      omega

end Floats

end Jkos.Klog
