import Jkos.Page.Regions
import Mathlib.Data.List.Nodup
import Mathlib.Data.List.Perm.Subperm

/-!
# The frames that `init_frames` pushes, and those that it leaves out

The loop over a region starts from the number of the frame behind its last whole frame,
less one, and decrements before it looks at a frame. A region that ends below `0x2000`
makes the counter wrap around, and frames that do not exist are pushed; every other region
pushes frames of its own memory only, but never its last one.
-/

namespace Jkos.Boot

variable {limit : Word} {mmap : List MmapEntry} {s b : State}

/-- The bytes of a region. -/
def MmapEntry.Covers (e : MmapEntry) (x : Nat) : Prop :=
  e.addr.toNat ≤ x ∧ x < e.addr.toNat + e.len.toNat

/-- The frame lies wholly inside the region. -/
def MmapEntry.Contains (e : MmapEntry) (f : Word) : Prop :=
  e.addr.toNat ≤ f.toNat * 4096 ∧ (f.toNat + 1) * 4096 ≤ e.addr.toNat + e.len.toNat

/-- The available regions of a memory map. -/
def available (mmap : List MmapEntry) : List MmapEntry := mmap.filter (·.available)

/-- No byte lies in two available regions. -/
def DisjointRegions (mmap : List MmapEntry) : Prop :=
  (available mmap).Pairwise fun a b => ∀ x, ¬ (a.Covers x ∧ b.Covers x)

/-- The loop over the region `e` ends and pushes `fs`. -/
def MmapEntry.Pushes (limit : Word) (e : MmapEntry) (fs : List Word) : Prop :=
  ∀ frames, pushFrames limit e.firstFrame loopBound (e.endFrame - 1) frames = .ok (fs ++ frames)

/-- `init_frames` returns; every frame that it pushes for a region lies in that region and
above static memory, no frame is pushed twice, and the array has room for all of them. -/
structure PushesFree (mmap : List MmapEntry) (size : Word) (s b : State) : Prop where
  run : initFrames mmap s = (.ok (), b)
  pushes : ∀ e ∈ available mmap, ∃ fs, e.Pushes (b.staticEnd >>> 12) fs ∧
    ∀ f ∈ fs, e.Contains f ∧ b.staticEnd >>> 12 < f
  nodup : b.frames.Nodup
  room : b.frames.length ≤ (size >>> 12).toNat

/-! ## Regions and frames -/

theorem MmapEntry.toNat_endFrame {e : MmapEntry} (h : e.addr.toNat + e.len.toNat < 2 ^ 32) :
    e.endFrame.toNat = (e.addr.toNat + e.len.toNat) / 4096 := by
  rw [MmapEntry.endFrame, BitVec.toNat_ushiftRight, (e.toNat_stop h).2, Nat.shiftRight_eq_div_pow]

theorem MmapEntry.toNat_firstFrame {e : MmapEntry} (h : e.addr.toNat + e.len.toNat < 2 ^ 32) :
    e.firstFrame.toNat = (e.addr.toNat + 4095) / 4096 := by
  have haddr : (e.addr.setWidth 32).toNat = e.addr.toNat := by
    rw [BitVec.toNat_setWidth, Nat.mod_eq_of_lt (by omega)]
  rw [MmapEntry.firstFrame]
  split
  · next hne =>
      have hpos : 1 ≤ (e.addr.setWidth 32).toNat := by
        rw [Nat.one_le_iff_ne_zero]
        intro h0
        exact hne (BitVec.eq_of_toNat_eq h0)
      rw [BitVec.toNat_add, BitVec.toNat_ushiftRight,
        BitVec.toNat_sub_of_le (by rw [BitVec.le_def]; exact hpos), haddr,
        Nat.shiftRight_eq_div_pow]
      change ((e.addr.toNat - 1) / 2 ^ 12 + 1) % 2 ^ 32 = _
      rw [haddr] at hpos
      omega
  · next heq =>
      rw [not_not.mp heq] at haddr
      change 0 = _ at haddr
      rw [not_not.mp heq]
      change 0 = _
      omega

theorem MmapEntry.contains_iff {e : MmapEntry} (h : e.addr.toNat + e.len.toNat < 2 ^ 32)
    {f : Word} : e.Contains f ↔ e.firstFrame.toNat ≤ f.toNat ∧ f.toNat < e.endFrame.toNat := by
  rw [MmapEntry.Contains, MmapEntry.toNat_firstFrame h, MmapEntry.toNat_endFrame h]
  omega

theorem MmapEntry.Contains.covers {e : MmapEntry} {f : Word} (h : e.Contains f) :
    e.Covers (f.toNat * 4096) := by
  obtain ⟨hlow, hhigh⟩ := h
  exact ⟨hlow, by omega⟩

theorem MmapEntry.lowest_eq (e : MmapEntry) :
    e.lowest limit = max e.firstFrame.toNat (limit.toNat + 1) := rfl

/-- Every frame that a region contributes is usable. -/
theorem MmapEntry.contains_of_mem_frames {e : MmapEntry}
    (h : e.addr.toNat + e.len.toNat < 2 ^ 32) {f : Word} (hf : f ∈ e.frames limit) :
    e.Contains f ∧ limit < f := by
  rw [MmapEntry.mem_frames, MmapEntry.lowest_eq] at hf
  rw [MmapEntry.contains_iff h, BitVec.lt_def]
  omega

theorem MmapEntry.pushes_pushed (hlimit : limit.toNat < 2 ^ 20) (e : MmapEntry) :
    e.Pushes limit (e.pushed limit) := pushFrames_pushed hlimit e

theorem MmapEntry.Pushes.eq {e : MmapEntry} {fs gs : List Word} (h : e.Pushes limit fs)
    (h' : e.Pushes limit gs) : fs = gs := by
  have heq := (h []).symm.trans (h' [])
  simpa using heq

/-- A region that ends below `0x2000` pushes a frame number that no region contains. -/
theorem MmapEntry.wrapped_mem_pushed {e : MmapEntry} (hlimit : limit.toNat < 2 ^ 20)
    (hend : e.endFrame.toNat < 2) : (0xFFFFFFFE : Word) ∈ e.pushed limit := by
  have hfirst := e.toNat_firstFrame_le
  rw [MmapEntry.pushed, if_neg (by omega), mem_framesBetween (by omega), MmapEntry.lowest_eq]
  change _ ≤ 0xFFFFFFFE ∧ 0xFFFFFFFE < _
  omega

theorem MmapEntry.not_contains_wrapped {e : MmapEntry}
    (h : e.addr.toNat + e.len.toNat < 2 ^ 32) : ¬ e.Contains 0xFFFFFFFE := by
  rintro ⟨-, hhigh⟩
  change (0xFFFFFFFE + 1) * 4096 ≤ _ at hhigh
  omega

/-! ## The state after `init_frames` -/

/-- The state after `init_frames` of a memory map that passes its checks. -/
theorem initFrames_eq {size : Word} (hsize : memsize 0 mmap = .ok size) (s : State) :
    initFrames mmap s = (.ok (), { s with
      staticEnd := s.staticEnd + 4 * (size >>> 12)
      frames := ((available mmap).map
        (·.pushed ((s.staticEnd + 4 * (size >>> 12)) >>> 12))).reverse.flatten }) := by
  rw [initFrames]
  simp only [Exec.bind_apply, Exec.read_apply, lift, hsize, newArray, kmalloc_apply,
    pushRegions_pushed (toNat_ushiftRight_twelve_lt _), getAligned_zero, Exec.modify_apply,
    List.append_nil]
  rfl

theorem memsize_of_run (h : initFrames mmap s = (.ok (), b)) :
    ∃ size, memsize 0 mmap = .ok size := by
  obtain ⟨size, s', hsize, -⟩ := Exec.bind_eq_ok h
  exact ⟨size, (Prod.mk.inj hsize).1⟩

/-- `memsize` is not below the end of any available region. -/
theorem le_foldl_max {es : List MmapEntry} (hfit : ∀ e ∈ es, e.addr.toNat + e.len.toNat < 2 ^ 32)
    (size : Word) :
    size.toNat ≤ (es.foldl (fun size e => Word.max (e.stop.setWidth 32) size) size).toNat ∧
      ∀ e ∈ es, e.addr.toNat + e.len.toNat ≤
        (es.foldl (fun size e => Word.max (e.stop.setWidth 32) size) size).toNat := by
  induction es generalizing size with
  | nil => simp
  | cons e es ih =>
      obtain ⟨hsize, hes⟩ := ih (fun e' he' => hfit e' (List.mem_cons_of_mem _ he'))
        (Word.max (e.stop.setWidth 32) size)
      have hmax : (e.stop.setWidth 32).toNat ≤ (Word.max (e.stop.setWidth 32) size).toNat ∧
          size.toNat ≤ (Word.max (e.stop.setWidth 32) size).toNat := by
        rw [Word.max]
        split
        · next h => exact ⟨Nat.le_refl _, Nat.le_of_lt h⟩
        · next h => exact ⟨Nat.not_lt.mp h, Nat.le_refl _⟩
      rw [(e.toNat_stop (hfit e List.mem_cons_self)).2] at hmax
      rw [List.foldl_cons]
      refine ⟨hmax.2.trans hsize, fun e' he' => ?_⟩
      cases he' with
      | head => exact hmax.1.trans hsize
      | tail _ hmem => exact hes e' hmem

/-- A list of different numbers below a bound is not longer than the bound. -/
theorem length_le_of_nodup {fs : List Word} (h : fs.Nodup) {n : Nat}
    (hlt : ∀ f ∈ fs, f.toNat < n) : fs.length ≤ n := by
  have hnodup : (fs.map BitVec.toNat).Nodup := h.map fun _ _ heq => BitVec.eq_of_toNat_eq heq
  have hsub : fs.map BitVec.toNat ⊆ List.range n := by
    intro k hk
    obtain ⟨f, hf, rfl⟩ := List.mem_map.mp hk
    exact List.mem_range.mpr (hlt f hf)
  simpa using (hnodup.subperm hsub).length_le

/-- Disjoint regions contribute different frames. -/
theorem nodup_flatten_frames (hdisj : DisjointRegions mmap)
    (hfit : ∀ e ∈ available mmap, e.addr.toNat + e.len.toNat < 2 ^ 32) :
    ((available mmap).map (·.frames limit)).reverse.flatten.Nodup := by
  have hpair : ((available mmap).map (·.frames limit)).Pairwise fun l l' => l'.Disjoint l := by
    rw [List.pairwise_map]
    refine hdisj.imp_of_mem fun ha hb hab => ?_
    intro f hf hf'
    exact hab _ ⟨(MmapEntry.contains_of_mem_frames (hfit _ ha) hf').1.covers,
      (MmapEntry.contains_of_mem_frames (hfit _ hb) hf).1.covers⟩
  rw [List.nodup_flatten]
  refine ⟨fun l hl => ?_, List.pairwise_reverse.mpr hpair⟩
  obtain ⟨e, -, rfl⟩ := List.mem_map.mp (List.mem_reverse.mp hl)
  refine e.pairwise_frames.imp fun {a b} hlt heq => ?_
  rw [heq] at hlt
  exact Nat.lt_irrefl _ hlt

/-! ## Only real memory is pushed -/

theorem pushed_eq_frames (hfit : ∀ e ∈ available mmap, e.addr.toNat + e.len.toNat < 2 ^ 32)
    (hhigh : ∀ e ∈ available mmap, 0x2000 ≤ e.addr.toNat + e.len.toNat) {e : MmapEntry}
    (he : e ∈ available mmap) : e.pushed limit = e.frames limit := by
  have h := hhigh e he
  refine if_pos ?_
  rw [MmapEntry.toNat_endFrame (hfit e he)]
  omega

theorem pushesFree_of_high {size : Word} (hsize : memsize 0 mmap = .ok size)
    (hdisj : DisjointRegions mmap)
    (hhigh : ∀ e ∈ available mmap, 0x2000 ≤ e.addr.toNat + e.len.toNat) (s : State) :
    ∃ b, PushesFree mmap size s b := by
  obtain ⟨rfl, hfit⟩ := memsize_eq hsize
  have hpushed : ∀ limit, (available mmap).map (·.pushed limit) =
      (available mmap).map (·.frames limit) :=
    fun limit => List.map_congr_left fun e he => pushed_eq_frames hfit hhigh he
  refine ⟨_, initFrames_eq hsize s, fun e he => ?_, ?_, ?_⟩
  · refine ⟨_, e.pushes_pushed (toNat_ushiftRight_twelve_lt _), fun f hf => ?_⟩
    rw [pushed_eq_frames hfit hhigh he] at hf
    exact MmapEntry.contains_of_mem_frames (hfit e he) hf
  · rw [hpushed]
    exact nodup_flatten_frames hdisj hfit
  · rw [hpushed]
    apply length_le_of_nodup (nodup_flatten_frames hdisj hfit)
    intro f hf
    simp only [List.mem_flatten, List.mem_reverse, List.mem_map] at hf
    obtain ⟨_, ⟨e, he, rfl⟩, hf⟩ := hf
    have hhigh := (MmapEntry.contains_of_mem_frames (hfit e he) hf).1.2
    have hend := (le_foldl_max hfit 0).2 e he
    rw [BitVec.toNat_ushiftRight, Nat.shiftRight_eq_div_pow, available] at *
    omega

/-- `init_frames` pushes nothing but free memory if and only if no available region ends
below `0x2000`. -/
theorem initFrames_pushesFree_iff {size : Word} (hsize : memsize 0 mmap = .ok size)
    (hdisj : DisjointRegions mmap) (s : State) :
    (∃ b, PushesFree mmap size s b) ↔
      ∀ e ∈ available mmap, 0x2000 ≤ e.addr.toNat + e.len.toNat := by
  constructor
  · rintro ⟨b, hb⟩ e he
    have hfit := (memsize_eq hsize).2 e he
    by_contra hlow
    obtain ⟨fs, hfs, hreal⟩ := hb.pushes e he
    have hlimit := toNat_ushiftRight_twelve_lt b.staticEnd
    have hend : e.endFrame.toNat < 2 := by
      rw [MmapEntry.toNat_endFrame hfit]
      omega
    rw [hfs.eq (e.pushes_pushed hlimit)] at hreal
    exact MmapEntry.not_contains_wrapped hfit
      (hreal _ (MmapEntry.wrapped_mem_pushed hlimit hend)).1
  · intro hhigh
    exact pushesFree_of_high hsize hdisj hhigh s

/-- Memory that consists of the first page only. -/
def onePage : List MmapEntry := [⟨0, 0x1000, true⟩]

/-- For a region of one page at address 0, frames are pushed that do not exist. -/
theorem onePage_not_pushesFree : memsize 0 onePage = .ok 0x1000 ∧ DisjointRegions onePage ∧
    ∀ s, ¬ ∃ b, PushesFree onePage 0x1000 s b := by
  refine ⟨rfl, by simp [DisjointRegions, onePage, available], ?_⟩
  rintro s ⟨b, hb⟩
  obtain ⟨fs, hfs, hreal⟩ := hb.pushes ⟨0, 0x1000, true⟩ (by simp [onePage, available])
  have hlimit := toNat_ushiftRight_twelve_lt b.staticEnd
  rw [hfs.eq (MmapEntry.pushes_pushed hlimit _)] at hreal
  exact MmapEntry.not_contains_wrapped (by decide)
    (hreal _ (MmapEntry.wrapped_mem_pushed hlimit (by decide))).1

theorem oneRegion_disjoint : DisjointRegions oneRegion.mmap := by
  simp [DisjointRegions, oneRegion, available]

theorem oneRegion_pushesFree : ∃ b, PushesFree oneRegion.mmap 0x8000000 (start oneRegion) b :=
  (initFrames_pushesFree_iff rfl oneRegion_disjoint _).mpr (by
    intro e he
    obtain rfl : e = ⟨0x100000, 0x7F00000, true⟩ := by
      simpa [oneRegion, available] using he
    decide)

/-! ## Memory that is lost -/

/-- Every frame that lies wholly inside an available region and above static memory is on
the stack. -/
def KeepsAll (mmap : List MmapEntry) (b : State) : Prop :=
  ∀ e ∈ available mmap, ∀ f, e.Contains f → b.staticEnd >>> 12 < f → f ∈ b.frames

/-- The last whole frame of each available region begins below the region or is not above
static memory. -/
def NoneUsable (mmap : List MmapEntry) (b : State) : Prop :=
  ∀ e ∈ available mmap, (e.addr.toNat + e.len.toNat) / 4096 ≤
    max ((e.addr.toNat + 4095) / 4096) ((b.staticEnd >>> 12).toNat + 1)

theorem lastFrame_notMem (hdisj : DisjointRegions mmap)
    (hfit : ∀ e ∈ available mmap, e.addr.toNat + e.len.toNat < 2 ^ 32) {e : MmapEntry}
    (he : e ∈ available mmap) {f : Word} (hlast : f.toNat + 1 = e.endFrame.toNat)
    (hf : e.Contains f) : f ∉ ((available mmap).map (·.frames limit)).reverse.flatten := by
  intro hmem
  simp only [List.mem_flatten, List.mem_reverse, List.mem_map] at hmem
  obtain ⟨_, ⟨e', he', rfl⟩, hf'⟩ := hmem
  by_cases heq : e' = e
  · rw [heq, MmapEntry.mem_frames] at hf'
    omega
  · have hcovers' := (MmapEntry.contains_of_mem_frames (hfit e' he') hf').1.covers
    have hsymm : Std.Symm fun a b : MmapEntry => ∀ x, ¬ (a.Covers x ∧ b.Covers x) :=
      ⟨fun a b h x hx => h x hx.symm⟩
    exact hdisj.forall he' he heq _ ⟨hcovers', hf.covers⟩

/-- The stack after `init_frames` has returned. -/
theorem frames_of_run (hrun : initFrames mmap s = (.ok (), b))
    (hhigh : ∀ e ∈ available mmap, 0x2000 < e.addr.toNat + e.len.toNat) :
    (∀ e ∈ available mmap, e.addr.toNat + e.len.toNat < 2 ^ 32) ∧
      b.frames = ((available mmap).map (·.frames (b.staticEnd >>> 12))).reverse.flatten := by
  obtain ⟨size, hsize⟩ := memsize_of_run hrun
  obtain ⟨-, hfit⟩ := memsize_eq hsize
  rw [initFrames_eq hsize] at hrun
  cases hrun
  refine ⟨hfit, congrArg (fun l : List (List Word) => l.reverse.flatten) ?_⟩
  exact List.map_congr_left fun e he => pushed_eq_frames hfit (fun e he => (hhigh e he).le) he

/-- A region with a usable frame loses its last one. -/
theorem KeepsAll.noneUsable (h : KeepsAll mmap b) (hrun : initFrames mmap s = (.ok (), b))
    (hdisj : DisjointRegions mmap)
    (hhigh : ∀ e ∈ available mmap, 0x2000 < e.addr.toNat + e.len.toNat) : NoneUsable mmap b := by
  obtain ⟨hfit, hframes⟩ := frames_of_run hrun hhigh
  intro e he
  by_contra husable
  rw [← MmapEntry.toNat_endFrame (hfit e he), ← MmapEntry.toNat_firstFrame (hfit e he)]
    at husable
  have hend := e.endFrame.isLt
  obtain ⟨f, hf⟩ : ∃ f : Word, f.toNat + 1 = e.endFrame.toNat :=
    ⟨BitVec.ofNat 32 (e.endFrame.toNat - 1), by
      rw [BitVec.toNat_ofNat, Nat.mod_eq_of_lt (by omega)]
      omega⟩
  have hcontains : e.Contains f := (MmapEntry.contains_iff (hfit e he)).mpr (by omega)
  have hlimit : b.staticEnd >>> 12 < f := by
    rw [BitVec.lt_def]
    omega
  have hmem := h e he f hcontains hlimit
  rw [hframes] at hmem
  exact lastFrame_notMem hdisj hfit he hf hcontains hmem

/-- Whenever `init_frames` returns, it has lost usable memory, unless there was none. -/
theorem initFrames_keepsAll_iff (hrun : initFrames mmap s = (.ok (), b))
    (hdisj : DisjointRegions mmap)
    (hhigh : ∀ e ∈ available mmap, 0x2000 < e.addr.toNat + e.len.toNat) :
    KeepsAll mmap b ↔ NoneUsable mmap b := by
  obtain ⟨hfit, -⟩ := frames_of_run hrun hhigh
  constructor
  · exact fun hall => hall.noneUsable hrun hdisj hhigh
  · intro hnone e he f hf hlimit
    have hbound := hnone e he
    rw [← MmapEntry.toNat_endFrame (hfit e he), ← MmapEntry.toNat_firstFrame (hfit e he)]
      at hbound
    have hf' := (MmapEntry.contains_iff (hfit e he)).mp hf
    rw [BitVec.lt_def] at hlimit
    omega

theorem oneRegion_high :
    ∀ e ∈ available oneRegion.mmap, 0x2000 < e.addr.toNat + e.len.toNat := by
  intro e he
  obtain rfl : e = ⟨0x100000, 0x7F00000, true⟩ := by
    simpa [oneRegion, available] using he
  decide

theorem oneRegion_usable {b : State} (hend : b.staticEnd = 0x220004) :
    ¬ NoneUsable oneRegion.mmap b := by
  intro h
  have hbound := h ⟨0x100000, 0x7F00000, true⟩ (by simp [oneRegion, available])
  rw [hend] at hbound
  revert hbound
  decide

/-- The last frame of a memory of 128 MB is lost. -/
theorem oneRegion_not_keepsAll : DisjointRegions oneRegion.mmap ∧
    (∀ e ∈ available oneRegion.mmap, 0x2000 < e.addr.toNat + e.len.toNat) ∧
    ∃ b, initFrames oneRegion.mmap (start oneRegion) = (.ok (), b) ∧
      ¬ KeepsAll oneRegion.mmap b := by
  refine ⟨oneRegion_disjoint, oneRegion_high, _, initFrames_eq rfl _, fun h => ?_⟩
  have hnone := h.noneUsable (initFrames_eq rfl _) oneRegion_disjoint oneRegion_high
  exact oneRegion_usable rfl hnone

theorem initFrames_keepsAll_iff_oneRegion :
    ∃ b, initFrames oneRegion.mmap (start oneRegion) = (.ok (), b) ∧
      (KeepsAll oneRegion.mmap b ↔ NoneUsable oneRegion.mmap b) :=
  ⟨_, initFrames_eq rfl _, initFrames_keepsAll_iff (initFrames_eq rfl _) oneRegion_disjoint
    oneRegion_high⟩

end Jkos.Boot
