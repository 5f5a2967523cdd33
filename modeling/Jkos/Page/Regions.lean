import Jkos.Page.Init
import Mathlib.Data.List.Pairwise
import Mathlib.Order.Interval.Finset.Nat

/-!
# What the memory map puts on the stack of frames

Each available region contributes a run of consecutive frames, highest first, and the
regions come in ascending order. So with a single contributing region the stack descends
from its bottom to its top, and with several regions its top lies above its bottom.
-/

namespace Jkos.Boot

/-- The frames `lo`, …, `hi - 1`. -/
def framesBetween (lo hi : Nat) : List Word := (List.range' lo (hi - lo)).map (BitVec.ofNat 32)

theorem framesBetween_of_le {lo hi : Nat} (h : hi ≤ lo) : framesBetween lo hi = [] := by
  simp [framesBetween, Nat.sub_eq_zero_of_le h]

theorem framesBetween_succ {lo hi : Nat} (h : lo ≤ hi) :
    framesBetween lo (hi + 1) = framesBetween lo hi ++ [BitVec.ofNat 32 hi] := by
  have hlen : hi + 1 - lo = hi - lo + 1 := by omega
  have hlast : lo + (hi - lo) = hi := by omega
  simp [framesBetween, hlen, List.range'_concat, hlast]

theorem mem_framesBetween {lo hi : Nat} (hhi : hi ≤ 2 ^ 32) {f : Word} :
    f ∈ framesBetween lo hi ↔ lo ≤ f.toNat ∧ f.toNat < hi := by
  simp only [framesBetween, List.mem_map, List.mem_range'_1]
  constructor
  · rintro ⟨n, ⟨hlo, hn⟩, rfl⟩
    rw [BitVec.toNat_ofNat, Nat.mod_eq_of_lt (by omega)]
    omega
  · rintro ⟨hlo, hf⟩
    exact ⟨f.toNat, by omega, by simp⟩

theorem pairwise_framesBetween {lo hi : Nat} (hhi : hi ≤ 2 ^ 32) :
    (framesBetween lo hi).Pairwise (fun a b => a.toNat < b.toNat) := by
  rw [framesBetween, List.pairwise_map]
  refine (List.pairwise_lt_range' (s := lo) (n := hi - lo)).imp_of_mem ?_
  intro a b ha hb hab
  rw [List.mem_range'_1] at ha hb
  rw [BitVec.toNat_ofNat, BitVec.toNat_ofNat, Nat.mod_eq_of_lt (by omega),
    Nat.mod_eq_of_lt (by omega)]
  exact hab

/-- The lowest frame that a region can contribute. -/
def MmapEntry.lowest (limit : Word) (e : MmapEntry) : Nat :=
  max e.firstFrame.toNat (limit.toNat + 1)

/-- The frames that a region contributes. -/
def MmapEntry.frames (limit : Word) (e : MmapEntry) : List Word :=
  framesBetween (e.lowest limit) (e.endFrame.toNat - 1)

/-- The loop over a region pushes its frames. -/
theorem pushFrames_eq {limit start : Word} {fuel : Nat} {i : Word} (hi : 1 ≤ i.toNat)
    (hfuel : i.toNat ≤ fuel) (frames : List Word) :
    pushFrames limit start fuel i frames =
      .ok (framesBetween (max start.toNat (limit.toNat + 1)) i.toNat ++ frames) := by
  induction fuel generalizing i frames with
  | zero => omega
  | succ fuel ih =>
      have hpred : (i - 1).toNat = i.toNat - 1 := by
        rw [BitVec.toNat_sub_of_le (by rw [BitVec.le_def]; exact hi)]
        rfl
      have hsucc : i.toNat = (i - 1).toNat + 1 := by omega
      by_cases hstart : i - 1 ≥ start
      · by_cases hlimit : i - 1 > limit
        · have hstart' : start.toNat ≤ (i - 1).toNat := hstart
          have hlimit' : limit.toNat < (i - 1).toNat := hlimit
          rw [pushFrames, if_pos hstart, if_pos hlimit, ih (by omega) (by omega), hsucc,
            framesBetween_succ (by omega), List.append_assoc, BitVec.ofNat_toNat, BitVec.setWidth_eq]
          rfl
        · have hlimit' : (i - 1).toNat ≤ limit.toNat := Nat.not_lt.mp hlimit
          rw [pushFrames, if_pos hstart, if_neg hlimit, framesBetween_of_le (by omega)]
          rfl
      · have hstart' : (i - 1).toNat < start.toNat := Nat.not_le.mp hstart
        rw [pushFrames, if_neg hstart, framesBetween_of_le (by omega)]
        rfl

/-- Counting down from frame 0, the loop goes on at the top of the address space. -/
theorem pushFrames_zero {limit start : Word} {fuel : Nat} (hfuel : 2 ^ 32 ≤ fuel)
    (hstart : start.toNat < 2 ^ 32 - 1) (hlimit : limit.toNat < 2 ^ 32 - 1) (frames : List Word) :
    pushFrames limit start fuel 0 frames =
      .ok (framesBetween (max start.toNat (limit.toNat + 1)) (2 ^ 32) ++ frames) := by
  obtain ⟨fuel, rfl⟩ : ∃ n, fuel = n + 1 := ⟨fuel - 1, by omega⟩
  have hpred : (0 - 1 : Word).toNat = 2 ^ 32 - 1 := by decide
  have hge : (0 - 1 : Word) ≥ start := by
    rw [ge_iff_le, BitVec.le_def, hpred]
    omega
  have hgt : (0 - 1 : Word) > limit := by
    rw [gt_iff_lt, BitVec.lt_def, hpred]
    exact hlimit
  rw [pushFrames, if_pos hge, if_pos hgt, pushFrames_eq (by omega) (by omega), hpred]
  have hlast : framesBetween (max start.toNat (limit.toNat + 1)) (2 ^ 32) =
      framesBetween (max start.toNat (limit.toNat + 1)) (2 ^ 32 - 1) ++ [0 - 1] :=
    framesBetween_succ (by omega)
  rw [hlast, List.append_assoc]
  rfl

/-- What the loop over a region pushes. If the region ends below `0x2000`, the first frame
that is looked at wraps around. -/
def MmapEntry.pushed (limit : Word) (e : MmapEntry) : List Word :=
  if 2 ≤ e.endFrame.toNat then e.frames limit
  else framesBetween (e.lowest limit) (e.endFrame.toNat + (2 ^ 32 - 1))

theorem MmapEntry.toNat_firstFrame_le (e : MmapEntry) : e.firstFrame.toNat ≤ 2 ^ 20 := by
  rw [MmapEntry.firstFrame]
  split
  · rw [BitVec.toNat_add, BitVec.toNat_ushiftRight, Nat.shiftRight_eq_div_pow]
    have := (e.addr.setWidth 32 - 1 : Word).isLt
    change (_ + 1) % _ ≤ _
    omega
  · next h =>
      rw [not_not.mp h]
      decide

/-- The loop over a region ends, for every region. -/
theorem pushFrames_pushed {limit : Word} (hlimit : limit.toNat < 2 ^ 20) (e : MmapEntry)
    (frames : List Word) :
    pushFrames limit e.firstFrame loopBound (e.endFrame - 1) frames =
      .ok (e.pushed limit ++ frames) := by
  have hfirst := e.toNat_firstFrame_le
  have hend := e.endFrame.isLt
  rw [MmapEntry.pushed]
  split
  · next h2 =>
      have hpred : (e.endFrame - 1).toNat = e.endFrame.toNat - 1 := by
        rw [BitVec.toNat_sub_of_le (by rw [BitVec.le_def]; exact Nat.le_of_succ_le h2)]
        rfl
      rw [pushFrames_eq (by omega) (by rw [loopBound]; omega), hpred]
      rfl
  · next h2 =>
      obtain h0 | h1 : e.endFrame.toNat = 0 ∨ e.endFrame.toNat = 1 := by omega
      · have hzero : e.endFrame = 0 := BitVec.eq_of_toNat_eq h0
        rw [h0, hzero, pushFrames_eq (by decide) (by rw [loopBound]; decide)]
        rfl
      · have hone : e.endFrame = 1 := BitVec.eq_of_toNat_eq h1
        rw [h1, hone]
        exact pushFrames_zero (by rw [loopBound]) (by omega) (by omega) frames

/-- The second loop of `init_frames`, region by region. -/
theorem pushRegions_pushed {limit : Word} (hlimit : limit.toNat < 2 ^ 20) (mmap : List MmapEntry)
    (frames : List Word) :
    pushRegions limit mmap frames =
      .ok (((mmap.filter (·.available)).map (·.pushed limit)).reverse.flatten ++ frames) := by
  induction mmap generalizing frames with
  | nil => rfl
  | cons e es ih =>
      by_cases havail : e.available
      · rw [pushRegions, if_pos havail, pushFrames_pushed hlimit]
        change pushRegions limit es _ = _
        rw [ih]
        simp [havail]
      · rw [pushRegions, if_neg havail]
        change pushRegions limit es _ = _
        rw [ih]
        simp [havail]

/-- With regions that end above `0x2000`, nothing wraps around. -/
theorem pushRegions_eq {limit : Word} (hlimit : limit.toNat < 2 ^ 20) {mmap : List MmapEntry}
    (hend : ∀ e ∈ mmap, e.available → 2 ≤ e.endFrame.toNat) (frames : List Word) :
    pushRegions limit mmap frames =
      .ok (((mmap.filter (·.available)).map (·.frames limit)).reverse.flatten ++ frames) := by
  have hmap : (mmap.filter (·.available)).map (·.pushed limit) =
      (mmap.filter (·.available)).map (·.frames limit) := by
    refine List.map_congr_left fun e he => ?_
    obtain ⟨hmem, havail⟩ := List.mem_filter.mp he
    exact if_pos (hend e hmem havail)
  rw [pushRegions_pushed hlimit, hmap]

theorem toNat_ushiftRight_twelve_lt (w : Word) : (w >>> 12).toNat < 2 ^ 20 := by
  have := w.isLt
  rw [BitVec.toNat_ushiftRight, Nat.shiftRight_eq_div_pow]
  omega

/-! ## The memory map -/

namespace Multiboot

variable (m : Multiboot)

/-- The available regions. -/
def regions : List MmapEntry := m.mmap.filter (·.available)

/-- The available regions are disjoint, in ascending order, and end above `0x2000`. -/
structure Ascending : Prop where
  sorted : m.regions.Pairwise fun a b => a.addr.toNat + a.len.toNat ≤ b.addr.toNat
  high : ∀ e ∈ m.regions, 0x2000 < e.addr.toNat + e.len.toNat

/-- The end of the available memory. -/
def memEnd : Word := m.regions.foldl (fun size e => Word.max (e.stop.setWidth 32) size) 0

/-- The end of the kernel image and of the first module, as the kernel computes it. -/
def loadEnd : Word :=
  match m.modEnd with
  | some modEnd => Word.max (modEnd + 4) (m.kernelImgEnd + 4)
  | none => m.kernelImgEnd + 4

/-- The end of static memory when `init_frames` pushes frames: the page directory and the
array for the stack lie behind what was loaded. -/
def frameArrayEnd : Word := getAligned m.loadEnd 12 + 8196 + 4 * (m.memEnd >>> 12)

/-- Only frames above this one are pushed. -/
def limit : Word := m.frameArrayEnd >>> 12

/-- The regions that contribute at least one frame: the last frame of a region is never
used, and none that static memory covers. -/
def providers : List MmapEntry :=
  m.regions.filter fun e => e.lowest m.limit < e.endFrame.toNat - 1

/-- What `init_frames` leaves on the stack. -/
def stack : List Word := (m.providers.map (·.frames m.limit)).reverse.flatten

end Multiboot

theorem MmapEntry.toNat_stop {e : MmapEntry} (h : e.addr.toNat + e.len.toNat < 2 ^ 32) :
    e.stop.toNat = e.addr.toNat + e.len.toNat ∧
      (e.stop.setWidth 32).toNat = e.addr.toNat + e.len.toNat := by
  have hstop : e.stop.toNat = e.addr.toNat + e.len.toNat := by
    rw [MmapEntry.stop, BitVec.toNat_add, Nat.mod_eq_of_lt (by omega)]
  refine ⟨hstop, ?_⟩
  rw [BitVec.toNat_setWidth, hstop, Nat.mod_eq_of_lt h]

/-- The first loop of `init_frames` checks every region and finds the end of memory. -/
theorem memsize_eq {size : Word} {mmap : List MmapEntry} {result : Word}
    (h : memsize size mmap = .ok result) :
    result = (mmap.filter (·.available)).foldl
        (fun size e => Word.max (e.stop.setWidth 32) size) size ∧
      ∀ e ∈ mmap.filter (·.available), e.addr.toNat + e.len.toNat < 2 ^ 32 := by
  induction mmap generalizing size with
  | nil =>
      cases h
      simp
  | cons e es ih =>
      rw [memsize] at h
      split at h
      · next havail =>
          split at h
          · cases h
          · next hsmall =>
              obtain ⟨hresult, hes⟩ := ih h
              obtain ⟨haddr, hlen, hstop⟩ := not_or.mp hsmall |>.imp_right not_or.mp
              have hfit : e.addr.toNat + e.len.toNat < 2 ^ 32 := by
                have haddr' : e.addr.toNat < 0xFFFFFFFF := Nat.not_le.mp haddr
                have hlen' : e.len.toNat < 0xFFFFFFFF := Nat.not_le.mp hlen
                have hstop' : e.stop.toNat ≤ 0xFFFFFFFF := Nat.not_lt.mp hstop
                rw [MmapEntry.stop, BitVec.toNat_add] at hstop'
                omega
              have hmax : (if e.stop > size.setWidth 64 then e.stop.setWidth 32 else size) =
                  Word.max (e.stop.setWidth 32) size := by
                have hsize : (size.setWidth 64).toNat = size.toNat := by
                  have := size.isLt
                  rw [BitVec.toNat_setWidth, Nat.mod_eq_of_lt (by omega)]
                obtain ⟨hstop64, hstop32⟩ := e.toNat_stop hfit
                simp only [Word.max, GT.gt, BitVec.lt_def, hsize, hstop64, hstop32]
              rw [hmax] at hresult
              rw [List.filter_cons_of_pos havail]
              refine ⟨hresult, ?_⟩
              intro e' he'
              cases he' with
              | head => exact hfit
              | tail _ hmem => exact hes e' hmem
      · next havail =>
          rw [List.filter_cons_of_neg (by simpa using havail)]
          exact ih h

theorem getAligned_zero (addr : Word) : getAligned addr 0 = addr := by
  rw [getAligned]
  split
  · next h => exact h.symm
  · simp

theorem kmalloc_apply (size : Word) (palign : Nat) (s : State) :
    kmalloc size palign s =
      (.ok (getAligned s.staticEnd palign),
        { s with staticEnd := getAligned s.staticEnd palign + size }) := rfl

theorem preserveModule_start (m : Multiboot) :
    preserveModule m.modEnd (start m) = (.ok (), { start m with staticEnd := m.loadEnd }) := by
  rw [Multiboot.loadEnd]
  cases m.modEnd with
  | none => rfl
  | some modEnd =>
      simp only [preserveModule, preserveMem, Exec.modify_apply, Word.max, start]
      split <;> rfl

/-- A region that contributes nothing leaves the stack as it is. -/
theorem MmapEntry.frames_eq_nil {limit : Word} {e : MmapEntry}
    (h : ¬ e.lowest limit < e.endFrame.toNat - 1) : e.frames limit = [] :=
  framesBetween_of_le (by omega)

theorem flatten_map_frames {limit : Word} (es : List MmapEntry) :
    (es.map (·.frames limit)).reverse.flatten =
      ((es.filter fun e => e.lowest limit < e.endFrame.toNat - 1).map
        (·.frames limit)).reverse.flatten := by
  induction es with
  | nil => rfl
  | cons e es ih =>
      by_cases h : e.lowest limit < e.endFrame.toNat - 1
      · simp [h, ih]
      · simp [h, ih, e.frames_eq_nil h]

theorem Multiboot.Ascending.endFrame {m : Multiboot} (asc : m.Ascending) {e : MmapEntry}
    (he : e ∈ m.regions) (hfit : e.addr.toNat + e.len.toNat < 2 ^ 32) : 2 ≤ e.endFrame.toNat := by
  have hhigh := asc.high e he
  rw [MmapEntry.endFrame, BitVec.toNat_ushiftRight, (e.toNat_stop hfit).2,
    Nat.shiftRight_eq_div_pow]
  omega

/-- The stack and the end of static memory after `init_frames`. -/
theorem loadMap_eq {m : Multiboot} (asc : m.Ascending) {size : Word}
    (hsize : memsize 0 m.mmap = .ok size) :
    loadMap m (start m) = (.ok (), ⟨m.frameArrayEnd, m.stack, fun _ => false⟩) := by
  obtain ⟨hend, hregions⟩ := memsize_eq hsize
  have hhigh : ∀ e ∈ m.mmap, e.available → 2 ≤ e.endFrame.toNat := by
    intro e he havail
    have hmem : e ∈ m.regions := List.mem_filter.mpr ⟨he, havail⟩
    exact asc.endFrame hmem (hregions e hmem)
  rw [loadMap, Exec.bind_ok (preserveModule_start m), Exec.bind_ok (kmalloc_apply _ _ _),
    initFrames]
  simp only [Exec.bind_apply, Exec.read_apply, lift, hsize, newArray, kmalloc_apply,
    pushRegions_eq (toNat_ushiftRight_twelve_lt _) hhigh, getAligned_zero, Exec.modify_apply,
    List.append_nil]
  rw [flatten_map_frames]
  simp only [hend]
  rfl

theorem loadMap_spec {m : Multiboot} (asc : m.Ascending) {b : State}
    (run : loadMap m (start m) = (.ok (), b)) :
    b = ⟨m.frameArrayEnd, m.stack, fun _ => false⟩ ∧
      ∀ e ∈ m.regions, e.addr.toNat + e.len.toNat < 2 ^ 32 := by
  have ok : ∃ size, memsize 0 m.mmap = .ok size := by
    rw [loadMap, Exec.bind_ok (preserveModule_start m), Exec.bind_ok (kmalloc_apply _ _ _),
      initFrames] at run
    obtain ⟨size, s, hsize, -⟩ := Exec.bind_eq_ok run
    exact ⟨size, (Prod.mk.inj hsize).1⟩
  obtain ⟨size, hsize⟩ := ok
  rw [loadMap_eq asc hsize] at run
  exact ⟨(Prod.mk.inj run).2.symm, (memsize_eq hsize).2⟩

/-! ## The order of the stack -/

section Order

variable {limit : Word}

theorem MmapEntry.mem_frames {e : MmapEntry} {f : Word} :
    f ∈ e.frames limit ↔ e.lowest limit ≤ f.toNat ∧ f.toNat < e.endFrame.toNat - 1 :=
  mem_framesBetween (by have := e.endFrame.isLt; omega)

theorem MmapEntry.pairwise_frames (e : MmapEntry) :
    (e.frames limit).Pairwise (fun a b => a.toNat < b.toNat) :=
  pairwise_framesBetween (by have := e.endFrame.isLt; omega)

/-- The frames of a region lie below those of a later one. -/
theorem MmapEntry.frames_lt {a b : MmapEntry} (ha : a.addr.toNat + a.len.toNat < 2 ^ 32)
    (hb : b.addr.toNat + b.len.toNat < 2 ^ 32) (hab : a.addr.toNat + a.len.toNat ≤ b.addr.toNat)
    {f g : Word} (hf : f ∈ a.frames limit) (hg : g ∈ b.frames limit) : f.toNat < g.toNat := by
  rw [MmapEntry.mem_frames] at hf hg
  have hstop : a.endFrame.toNat = (a.addr.toNat + a.len.toNat) / 4096 := by
    rw [MmapEntry.endFrame, BitVec.toNat_ushiftRight, (a.toNat_stop ha).2,
      Nat.shiftRight_eq_div_pow]
  have hfirst : b.addr.toNat / 4096 ≤ b.firstFrame.toNat := by
    have haddr : (b.addr.setWidth 32).toNat = b.addr.toNat := by
      rw [BitVec.toNat_setWidth, Nat.mod_eq_of_lt (by omega)]
    rw [MmapEntry.firstFrame]
    split
    · next hne =>
        have hpos : 1 ≤ (b.addr.setWidth 32).toNat := by
          rw [Nat.one_le_iff_ne_zero]
          intro h0
          exact hne (BitVec.eq_of_toNat_eq h0)
        rw [BitVec.toNat_add, BitVec.toNat_ushiftRight,
          BitVec.toNat_sub_of_le (by rw [BitVec.le_def]; exact hpos), haddr,
          Nat.shiftRight_eq_div_pow]
        change b.addr.toNat / 4096 ≤ ((b.addr.toNat - 1) / 2 ^ 12 + 1) % 2 ^ 32
        omega
    · rw [haddr]
      exact Nat.div_le_self _ _
  have hlow : b.firstFrame.toNat ≤ b.lowest limit := Nat.le_max_left _ _
  have hdiv : (a.addr.toNat + a.len.toNat) / 4096 ≤ b.addr.toNat / 4096 :=
    Nat.div_le_div_right hab
  omega

end Order

theorem Multiboot.lowest_lt {m : Multiboot} {e : MmapEntry} (h : e ∈ m.providers) :
    e.lowest m.limit < e.endFrame.toNat - 1 := by
  simpa using (List.mem_filter.mp h).2

/-- Every frame from the lowest to the one before the last belongs to the region. -/
theorem MmapEntry.ofNat_mem_frames {limit : Word} {e : MmapEntry} {n : Nat}
    (hlow : e.lowest limit ≤ n) (hhigh : n < e.endFrame.toNat - 1) :
    BitVec.ofNat 32 n ∈ e.frames limit := by
  have := e.endFrame.isLt
  rw [MmapEntry.mem_frames, BitVec.toNat_ofNat, Nat.mod_eq_of_lt (by omega)]
  exact ⟨hlow, hhigh⟩

theorem Multiboot.frames_ne_nil {m : Multiboot} {e : MmapEntry} (h : e ∈ m.providers) :
    e.frames m.limit ≠ [] :=
  List.ne_nil_of_mem (MmapEntry.ofNat_mem_frames (Nat.le_refl _) (Multiboot.lowest_lt h))

theorem Multiboot.mem_stack {m : Multiboot} {f : Word} :
    f ∈ m.stack ↔ ∃ e ∈ m.providers, f ∈ e.frames m.limit := by
  simp [Multiboot.stack]

/-- A single contributing region leaves an ascending run, seen from the top of the stack. -/
theorem Multiboot.stack_of_single {m : Multiboot} {e : MmapEntry} (h : m.providers = [e]) :
    m.stack = e.frames m.limit := by
  simp [Multiboot.stack, h]

/-- With several contributing regions, the frames of the first one are at the bottom of the
stack, below frames that are all higher. -/
theorem Multiboot.stack_of_several {m : Multiboot} (asc : m.Ascending)
    (hfit : ∀ e ∈ m.regions, e.addr.toNat + e.len.toNat < 2 ^ 32) {e e' : MmapEntry}
    {es : List MmapEntry} (h : m.providers = e :: e' :: es) :
    ∃ upper lower, m.stack = upper ++ lower ∧ upper ≠ [] ∧ lower ≠ [] ∧
      ∀ f ∈ upper, ∀ g ∈ lower, g.toNat < f.toNat := by
  have hmem : ∀ x ∈ e :: e' :: es, x ∈ m.regions ∧ x.frames m.limit ≠ [] := by
    intro x hx
    rw [← h] at hx
    exact ⟨List.mem_of_mem_filter hx, Multiboot.frames_ne_nil hx⟩
  have hsorted : (e :: e' :: es).Pairwise fun a b => a.addr.toNat + a.len.toNat ≤ b.addr.toNat := by
    rw [← h]
    exact asc.sorted.filter _
  refine ⟨((e' :: es).map (·.frames m.limit)).reverse.flatten, e.frames m.limit, ?_, ?_,
    (hmem e (by simp)).2, ?_⟩
  · simp [Multiboot.stack, h]
  · obtain ⟨f, hf⟩ := List.exists_mem_of_ne_nil _ (hmem e' (by simp)).2
    apply List.ne_nil_of_mem (a := f)
    simp [hf]
  · intro f hf g hg
    simp only [List.mem_flatten, List.mem_reverse, List.mem_map] at hf
    obtain ⟨_, ⟨x, hx, rfl⟩, hf⟩ := hf
    have hle := List.rel_of_pairwise_cons hsorted hx
    exact MmapEntry.frames_lt (hfit e (hmem e (by simp)).1) (hfit x (hmem x (by simp [hx])).1)
      hle hg hf

/-! ## The reference counts -/

/-- Every frame of the stack is an index of the array `frame_ref_cnt`, which is sized by the
bottom and the top of the stack, and its length does not wrap. -/
def Covered : List Word → Prop
  | [] => False
  | top :: frames =>
    let bottom := (top :: frames).getLast (List.cons_ne_nil top frames)
    (∀ f ∈ top :: frames, top ≤ f ∧ f ≤ bottom) ∧
      (bottom - top + 1).toNat + top.toNat = bottom.toNat + 1

theorem not_covered_append {upper lower : List Word} (hupper : upper ≠ []) (hlower : lower ≠ [])
    (hlt : ∀ f ∈ upper, ∀ g ∈ lower, g.toNat < f.toNat) : ¬ Covered (upper ++ lower) := by
  obtain ⟨top, upper', rfl⟩ := List.exists_cons_of_ne_nil hupper
  obtain ⟨g, hg⟩ := List.exists_mem_of_ne_nil _ hlower
  rintro ⟨hcover, -⟩
  have hle : top.toNat ≤ g.toNat := (hcover g (by simp [hg])).1
  have := hlt top (by simp) g hg
  omega

theorem covered_of_pairwise {frames : List Word} (hne : frames ≠ [])
    (hsorted : frames.Pairwise (fun a b => a.toNat < b.toNat))
    (hsmall : ∀ f ∈ frames, f.toNat + 1 < 2 ^ 32) : Covered frames := by
  obtain ⟨top, rest, rfl⟩ := List.exists_cons_of_ne_nil hne
  have hlow : ∀ f ∈ top :: rest, top ≤ f := by
    intro f hf
    cases hf with
    | head => exact BitVec.le_refl _
    | tail _ hmem => exact Nat.le_of_lt (List.rel_of_pairwise_cons hsorted hmem)
  have hhigh : ∀ f ∈ top :: rest, f ≤ (top :: rest).getLast (by simp) := by
    intro f hf
    rw [← List.dropLast_append_getLast (l := top :: rest) (by simp), List.mem_append] at hf
    obtain hf | hf := hf
    · rw [← List.dropLast_append_getLast (l := top :: rest) (by simp),
        List.pairwise_append] at hsorted
      exact Nat.le_of_lt (hsorted.2.2 f hf _ (by simp))
    · rw [List.mem_singleton.mp hf]
      exact BitVec.le_refl _
  refine ⟨fun f hf => ⟨hlow f hf, hhigh f hf⟩, ?_⟩
  have hlast := List.getLast_mem (l := top :: rest) (by simp)
  have hle : top.toNat ≤ ((top :: rest).getLast (by simp)).toNat := hlow _ hlast
  have hbound := hsmall _ hlast
  rw [BitVec.toNat_add, BitVec.toNat_sub_of_le (by rw [BitVec.le_def]; exact hle)]
  change (((top :: rest).getLast _).toNat - top.toNat + 1) % 2 ^ 32 + top.toNat = _
  rw [Nat.mod_eq_of_lt (by omega)]
  omega

/-- A stack that comes from one region ascends from its top. -/
theorem MmapEntry.covered_frames {limit : Word} {e : MmapEntry} (hne : e.frames limit ≠ []) :
    Covered (e.frames limit) := by
  have hend := e.endFrame.isLt
  apply covered_of_pairwise hne e.pairwise_frames
  intro f hf
  have := (MmapEntry.mem_frames.mp hf).2
  omega

/-- The reference counts cover the stack exactly if a single region contributes to it. -/
theorem loadMap_covered_iff {m : Multiboot} {b : State} (asc : m.Ascending)
    (run : loadMap m (start m) = (.ok (), b)) (hprov : m.providers ≠ []) :
    Covered b.frames ↔ m.providers.length = 1 := by
  obtain ⟨hb, hfit⟩ := loadMap_spec asc run
  subst hb
  cases h : m.providers with
  | nil => exact absurd h hprov
  | cons e es =>
      cases es with
      | nil =>
          have hne : e.frames m.limit ≠ [] := Multiboot.frames_ne_nil (h ▸ List.mem_singleton_self e)
          simp only [Multiboot.stack_of_single h, List.length_singleton, iff_true]
          exact MmapEntry.covered_frames hne
      | cons e' es =>
          obtain ⟨upper, lower, hstack, hupper, hlower, hlt⟩ := Multiboot.stack_of_several asc hfit h
          simp only [hstack, List.length_cons]
          constructor
          · intro hcov
            exact absurd hcov (not_covered_append hupper hlower hlt)
          · intro hlen
            omega

/-- Memory from 1 MB to 128 MB in one piece. -/
def oneRegion : Multiboot := ⟨[⟨0x100000, 0x7F00000, true⟩], none, 0x200000⟩

/-- The same memory with a hole from 16 MB to 17 MB. -/
def twoRegions : Multiboot :=
  ⟨[⟨0x100000, 0xF00000, true⟩, ⟨0x1000000, 0x100000, false⟩, ⟨0x1100000, 0x6F00000, true⟩], none,
    0x200000⟩

theorem oneRegion_ascending : oneRegion.Ascending := ⟨by decide, by decide⟩

theorem twoRegions_ascending : twoRegions.Ascending := ⟨by decide, by decide⟩

theorem oneRegion_loadMap : loadMap oneRegion (start oneRegion) =
    (.ok (), ⟨oneRegion.frameArrayEnd, oneRegion.stack, fun _ => false⟩) :=
  loadMap_eq oneRegion_ascending (show memsize 0 oneRegion.mmap = .ok 0x8000000 from rfl)

theorem twoRegions_loadMap : loadMap twoRegions (start twoRegions) =
    (.ok (), ⟨twoRegions.frameArrayEnd, twoRegions.stack, fun _ => false⟩) :=
  loadMap_eq twoRegions_ascending (show memsize 0 twoRegions.mmap = .ok 0x8000000 from rfl)

theorem oneRegion_providers : oneRegion.providers = oneRegion.regions := by
  decide

theorem twoRegions_providers : twoRegions.providers = twoRegions.regions := by
  decide

/-- The counts cover the stack of a memory without holes. -/
theorem oneRegion_covered : oneRegion.providers ≠ [] ∧ Covered oneRegion.stack := by
  have hprov : oneRegion.providers ≠ [] := by decide
  exact ⟨hprov, (loadMap_covered_iff oneRegion_ascending oneRegion_loadMap hprov).mpr (by decide)⟩

/-- With a hole in the memory, the top of the stack lies above its bottom. -/
theorem twoRegions_not_covered :
    twoRegions.Ascending ∧ twoRegions.providers ≠ [] ∧
      ∃ b, loadMap twoRegions (start twoRegions) = (.ok (), b) ∧ ¬ Covered b.frames := by
  refine ⟨twoRegions_ascending, by decide, _, twoRegions_loadMap, ?_⟩
  obtain ⟨upper, lower, hstack, hupper, hlower, hlt⟩ :=
    Multiboot.stack_of_several twoRegions_ascending
      (loadMap_spec twoRegions_ascending twoRegions_loadMap).2 twoRegions_providers
  simp only [hstack]
  exact not_covered_append hupper hlower hlt

end Jkos.Boot
