import Jkos.Kheap.Run
import Jkos.Page.Fork
import Jkos.Page.Started

/-!
# The memory subsystem at work

After `Page::init` the kernel allocates and frees memory, makes page tables, clones
directories, switches between them and handles page faults, in any order. In every state
that it reaches the directories have the tables of the kernel in common and no others, and
the processor finds the tables where the kernel has put them.
-/

namespace Jkos.Page

open Exec Kheap

variable {g : Layout} {c : Prop} {K : Set Slot} {s s' s₀ : Kernel} {p q : Slot}
  {F F' own : Multiset Block} {live : Multiset Chunk} {x : Chunk} {b : Block}
  {d d' a addr errCode eip src dest : Word} {f : Frame} {write : Bool}

/-! ## Page faults -/

/-- A fault that the processor raises and the handler resolves. -/
theorem resolved_of_fault (hs : Sound g c s) (hl : Linked g s) (hscr : Scratched s)
    (hwalk : walk s addr write (decide (s.kernelCodeEnd ≤ eip)) = .error errCode)
    (hrun : pageFault addr errCode eip s = (.ok (), s')) :
    ∃ p, lookup s s.currentPageDir addr = some p ∧ Editable g s p ∧ Resolved p s s' := by
  cases hlook : lookup s s.currentPageDir addr with
  | none =>
      rw [pageFault_of_none hlook] at hrun
      exact absurd (Prod.mk.inj hrun).1 (by simp)
  | some p =>
      have hfail : ∀ {e : Fault}, pageFault addr errCode eip s ≠ (.error e, s) := fun e => by
        rw [hrun] at e
        exact absurd (Prod.mk.inj e).1 (by simp)
      have hopen : Open s p eip := by
        by_contra hclosed
        exact hfail (pageFault_of_closed hlook hclosed)
      have hguest : ¬ (decide (s.kernelCodeEnd ≤ eip) = true ∧ (s.page p).user = false) := by
        rintro ⟨hle, huser⟩
        rcases hopen.2 with h | h
        · exact absurd (h.symm.trans huser) (by decide)
        · exact absurd (of_decide_eq_true hle) (BitVec.not_le.mpr h)
      simp only [walk, hlook, hguest, false_or] at hwalk
      have hedit : Editable g s p := by
        by_contra hnot
        have hid : p ∉ g.identity := fun hmem =>
          absurd (hopen.1.symm.trans (hs.frames.identity p hmem).2.2) (by decide)
        have hscratch : p = s.emptyPage0 ∨ p = s.emptyPage1 := by
          by_contra hne
          rw [not_or] at hne
          exact hnot ⟨⟨(hl.lookup_mem hl.current hlook).1, hne.1, hne.2⟩, hid⟩
        obtain ⟨-, hpresent, hrw, -⟩ := hscr.entry p hscratch
        simp [hpresent, hrw] at hwalk
      refine ⟨p, rfl, hedit, ?_⟩
      split at hwalk
      · next habsent =>
          have hzero : (s.page p).addr = 0 := by
            by_contra hheld
            exact absurd (((hs.shaped p hedit).1.mpr hheld).symm.trans habsent) (by decide)
          cases hwalk
          exact (pageFault_lazy_ends hlook hopen (errCodeOf_absent _ _) hzero).ok hrun
      · next hpresent =>
          rw [Bool.not_eq_false] at hpresent
          split at hwalk
          · next hw =>
              cases hwalk
              obtain ⟨rfl, -⟩ := hw
              have hheld := (hs.shaped p hedit).1.mp hpresent
              have huser : (s.page p).user = true := by
                by_contra huser
                exact hfail (pageFault_of_reject hlook hopen (errCodeOf_protection _ _)
                  fun h => huser h.2)
              have hsome : s.frameRefCnt (s.page p).addr ≠ 0 := fun e =>
                hfail (pageFault_of_count hlook hopen (errCodeOf_protection _ _)
                  ⟨errCodeOf_write _, huser⟩ (.inr e))
              exact ((pageFault_write_ends hlook hopen hedit (errCodeOf_protection _ _)
                ⟨errCodeOf_write _, huser⟩ hheld hsome).ok hrun).1
          · cases hwalk

theorem Resolved.touch (h : Resolved p s s') (hs : Sound g c s) (hp : Editable g s p) :
    Touch g c {p} s s' := by
  have hacc : Accessed p false s (s'.page p).addr s' :=
    ⟨.single h, rfl, (h.page_self hs.frames hp).1, fun e => absurd e (by decide)⟩
  exact hacc.touch hs hp

/-- Faults leave the owners of the heap alone. -/
theorem Owned.resolved (h : Owned g F live own s) (hr : Resolved p s s') (hp : Editable g s p) :
    Owned g F live own s' := by
  have htouch := hr.touch h.valid.sound hp
  refine h.touch htouch fun y hy k hk w hw => ?_
  obtain ⟨q, hlook, hq, -, hcopy⟩ := (h.chunks y hy).ready_header h.valid.linked hk
  rcases eq_or_ne q p with rfl | hne
  · rw [peek_eq_some hlook] at hw
    obtain ⟨bytes, hbytes, hw⟩ := hw
    rw [peek_eq_some (q := q) (by rw [htouch.work.lookup_eq, hlook])]
    exact ⟨bytes, hr.view_self h.valid.sound.frames hp hcopy hbytes, hw⟩
  · rw [htouch.work.peek_eq trivial h.valid.sound hlook hq hne]
    exact hw

/-! ## Switching directories -/

theorem Linked.enable (h : Linked g s) (hd : d ∈ s.dirs) :
    Linked g { s with currentPageDir := d } :=
  ⟨h.finished, h.heapReady, h.code, h.low, h.lowLe, hd, h.kernel, h.inj, h.shared,
    ⟨h.owned.own, h.owned.unique⟩, h.identity, h.scratch0, h.scratch1⟩

theorem Valid.enable (h : Valid g c F s) (hd : d ∈ s.dirs) :
    Valid g c F { s with currentPageDir := d } := by
  have hstep : Step g c ∅ s { s with currentPageDir := d } := .other rfl rfl rfl rfl rfl rfl rfl
  exact ⟨hstep.sound h.sound, h.linked.enable hd,
    ⟨⟨h.heap.tables, h.heap.dirs, h.heap.scratch⟩, h.heap.frees, h.heap.proper, h.heap.once⟩⟩

/-- The heap is the same in every directory. -/
theorem Owned.enable (h : Owned g F live own s) (hd : d ∈ s.dirs) :
    Owned g F live own { s with currentPageDir := d } := by
  have hvalid := h.valid.enable hd
  have hlive : ∀ x ∈ live, Live g { s with currentPageDir := d } x (recorded s x.ptr) := by
    intro x hx
    have hx' := h.chunks x hx
    refine ⟨hx'.proper, hx'.header, hx'.payload, hx'.opened, fun k hk => ?_⟩
    have hnat := hx'.toNat_header (k := k) hk
    have hhead := hx'.header
    change k < 8 at hk
    obtain ⟨hheap, -⟩ := hx'.heapAddr (a := x.ptr - 8 + BitVec.ofNat 32 k) (by omega) (by omega)
    rw [hvalid.linked.cell_iff hheap]
    exact (h.valid.linked.cell_iff hheap).mp (hx'.cells k hk)
  have hold := blocks_congr hvalid.sound hvalid.linked hlive
  refine ⟨hvalid, h.separate, fun x hx => ?_, fun a => ?_, ?_⟩
  · rw [(hlive x hx).recorded_eq hvalid.sound hvalid.linked]
    exact hlive x hx
  · rw [hold]
    exact h.tiles a
  · rw [hold]
    exact ⟨h.clear.tables, h.clear.dirs, h.clear.scratch⟩

/-! ## The agreement of the two views -/

theorem Linked.mem_tables (h : Linked g s) (hd : d ∈ s.dirs) {i : BitVec 10}
    (hi : (s.dir d).tables i ≠ null) : (s.dir d).tables i ∈ s.tables := by
  by_cases hshared : g.Shared i
  · rw [h.shared d hd i hshared]
    exact (h.kernel i hshared).1
  · exact (h.owned.own d hd i hshared hi).1

/-- Directories that stay as they are. -/
theorem Coherent.congr (h : Coherent g s) (hl : Linked g s) (hdirs : s'.dirs = s.dirs)
    (hdir : s'.dir = s.dir) (htables : ∀ t ∈ s.tables, ∀ f, Backed g s t f → Backed g s' t f)
    (hphy : ∀ d ∈ s.dirs, ∀ f, Backed g s (d + 4096) f → Backed g s' (d + 4096) f) :
    Coherent g s' := by
  refine ⟨fun d hd => ?_, fun d hd => ?_⟩
  · rw [hdirs] at hd
    rw [hdir]
    exact (h.agrees d hd).mono fun i f hi hb => htables _ (hl.mem_tables hd hi) f hb
  · rw [hdirs] at hd
    rw [hdir]
    obtain ⟨f, hb, he⟩ := h.phyaddr d hd
    exact ⟨f, hphy d hd f hb, he⟩

theorem Backed.touch (h : Backed g s a f) (ht : Touch g c K s s') (hs : Sound g c s)
    (hl : Linked g s) : Backed g s' a f := by
  refine h.steps ht.work.steps hs.frames ht.work.env fun hheap hscratch hopen hheld => ?_
  have hedit := hl.editable_heap hheap hscratch
  exact ⟨hopen.touch ht hedit hl.code, ht.fixed _ hedit hopen.2.1 hheld⟩

theorem Coherent.touch (h : Coherent g s) (ht : Touch g c K s s') (hs : Sound g c s)
    (hl : Linked g s) : Coherent g s' :=
  h.congr hl ht.work.dirs_eq ht.work.dir_eq (fun _ _ _ hb => hb.touch ht hs hl)
    fun _ _ _ hb => hb.touch ht hs hl

/-- A page with an address that no free block holds keeps its frame. -/
theorem Backed.freed {blk : Block} {freeStart freeEnd : Word} (h : Backed g s a f)
    (hf : Freed g c F F' blk freeStart freeEnd s s') (hs : Valid g c F s)
    (hfree : HeapAddr a → depthOf F' a.toNat = 0) : Backed g s' a f := by
  refine h.steps hf.steps hs.sound.frames (SameEnv.of_rest hf.rest) fun hheap _ hopen _ => ?_
  have hpage := hf.page_eq hs.linked hheap fun m hm hmem =>
    (depthOf_pos_of_mem hm hmem.1 hmem.2).ne' (hfree hheap)
  rw [Opened, hpage]
  exact ⟨hopen, rfl⟩

theorem Coherent.freed {blk : Block} {freeStart freeEnd : Word} (h : Coherent g s)
    (hf : Freed g c F F' blk freeStart freeEnd s s') (hs : Valid g c F s) : Coherent g s' := by
  have hclear := hf.valid.heap.toClear
  have htables : s'.tables = s.tables := (congrArg Kernel.tables hf.rest :)
  have hdirs : s'.dirs = s.dirs := (congrArg Kernel.dirs hf.rest :)
  refine h.congr hs.linked hdirs (congrArg Kernel.dir hf.rest :)
    (fun t ht f hb => hb.freed hf hs fun _ => hclear.tables t (htables ▸ ht))
    fun d hd f hb => hb.freed hf hs fun hheap => ?_
  have hnat : (d + 4096).toNat = d.toNat + 4096 := by
    have hlo := hheap.1
    have hlt := d.isLt
    rw [BitVec.toNat_add, show (4096 : Word).toNat = 4096 from rfl] at hlo ⊢
    omega
  rw [hnat]
  exact hclear.dirs d (hdirs ▸ hd) 4096 (by decide)

theorem Coherent.grown (h : Coherent g s) (hg : Grown g c F F' s s') (hs : Valid g c F s)
    (hdirs : s'.dirs = s.dirs) (hdir : s'.dir = s.dir) : Coherent g s' :=
  h.congr hs.linked hdirs hdir (fun _ _ _ hb => hb.grown hg hs) fun _ _ _ hb => hb.grown hg hs

theorem Coherent.made {i : BitVec 10} {t : Word} (h : Coherent g s)
    (hm : Made g c F F' d i t s s') (hs : Valid g c F s) : Coherent g s' := by
  refine ⟨fun d' hd' => ?_, fun d' hd' => ?_⟩
  · rw [hm.dirs] at hd'
    exact hm.agrees hs (h.agrees d' hd')
  · rw [hm.dirs] at hd'
    obtain ⟨f, hb, he⟩ := h.phyaddr d' hd'
    refine ⟨f, hb.grown hm.grown hs, ?_⟩
    rw [hm.dir]
    rcases eq_or_ne d' d with rfl | hne
    · rw [Kernel.dir_setDir_self]
      exact he
    · rw [Kernel.dir_setDir_of_ne _ _ hne]
      exact he

theorem Coherent.cloned (h : Coherent g s) (hc : Cloned g c F F' src dest s s')
    (hs : Valid g c F s) (hsrc : src ∈ s.dirs) : Coherent g s' := by
  have hold : ∀ d ∈ s.dirs, s'.dir d = s.dir d := fun d hd =>
    hc.others d fun e => hc.fresh (e ▸ hd)
  refine ⟨fun d hd => ?_, fun d hd => ?_⟩
  · rw [hc.dirs] at hd
    obtain rfl | hd := List.mem_cons.mp hd
    · exact hc.agrees (h.agrees src hsrc)
    · rw [hold d hd]
      exact (h.agrees d hd).grown hc.grown hs
  · rw [hc.dirs] at hd
    obtain rfl | hd := List.mem_cons.mp hd
    · exact ⟨_, hc.resident.backed, hc.phyaddr⟩
    · rw [hold d hd]
      obtain ⟨f, hb, he⟩ := h.phyaddr d hd
      exact ⟨f, hb.grown hc.grown hs, he⟩

/-! ## Runs -/

/-- What the kernel does with its memory: calls of the heap, `get_page` with `make`, page
faults that the handler resolves, `clone_directory` and switches between directories. -/
inductive MemStep : HeapSystem → HeapSystem → Prop
  | heap {σ σ' : HeapSystem} (step : HeapStep σ σ') : MemStep σ σ'
  | getPage {s s' : Kernel} {live : Multiset Chunk} {d addr : Word} {p : Option Slot}
      (hd : d ∈ s.dirs) (run : getPage d addr true s = (.ok p, s')) : MemStep ⟨s, live⟩ ⟨s', live⟩
  | fault {s s' : Kernel} {live : Multiset Chunk} {addr errCode eip : Word} {write : Bool}
      (hwalk : walk s addr write (decide (s.kernelCodeEnd ≤ eip)) = .error errCode)
      (run : pageFault addr errCode eip s = (.ok (), s')) : MemStep ⟨s, live⟩ ⟨s', live⟩
  | clone {s s' : Kernel} {live : Multiset Chunk} {src dest : Word} (hsrc : src ∈ s.dirs)
      (run : cloneDirectory src s = (.ok dest, s')) : MemStep ⟨s, live⟩ ⟨s', live⟩
  | enable {s : Kernel} {live : Multiset Chunk} {d : Word} (hd : d ∈ s.dirs) :
      MemStep ⟨s, live⟩ ⟨(enable d s).2, live⟩

/-- Any number of steps. -/
abbrev MemRuns : HeapSystem → HeapSystem → Prop := Relation.ReflTransGen MemStep

theorem Owned.running (h : Owned g F live own s) (hscr : Scratched s) : Running g True F s :=
  ⟨h.valid, hscr⟩

/-- `get_page` in a directory in existence finds the entry or makes a table. -/
theorem getPageWith_of_mem (h : Running g c F s) (hd : d ∈ s.dirs) (addr : Word) :
    Ends (getPageWith kmalloc d addr) s
      (fun p s' => (s' = s ∧ lookup s d addr = some p) ∨
        ∃ F' t, Made g c F F' d (tbIdx addr) t s s' ∧ p = ⟨t, tbOffset addr⟩)
      (fun e _ => e.Exhausted) := by
  cases hlook : lookup s d addr with
  | some p => exact .of_ok (getPageWith_of_lookup hlook) (.inl ⟨rfl, rfl⟩)
  | none =>
      have hnull : (s.dir d).tables (tbIdx addr) = null := by
        rw [lookup] at hlook
        split at hlook
        · next e => exact e
        · cases hlook
      have hi : ¬ g.Shared (tbIdx addr) := fun hi =>
        (h.linked.kernel _ hi).2 ((h.linked.shared d hd _ hi).symm.trans hnull)
      exact (getPageWith_ends h hi hnull).mono (fun _ _ h => .inr h) (fun _ _ h => h)

theorem getPage_eq_ok {o : Option Slot} (h : getPage d addr true s = (.ok o, s')) :
    ∃ p, getPageWith kmalloc d addr s = (.ok p, s') := by
  rw [getPage, if_pos rfl] at h
  obtain ⟨p, t, hp, ht⟩ := bind_eq_ok h
  cases ht
  exact ⟨p, hp⟩

theorem HeapStep.coherent {σ σ' : HeapSystem} (h : HeapStep σ σ')
    (hown : Owned g F σ.live own σ.kernel) (hc : Coherent g σ.kernel) : Coherent g σ'.kernel := by
  have hs := hown.valid
  cases h with
  | kmalloc hsize hpalign run =>
      obtain ⟨F', got, hm⟩ := (kmalloc_ends hs hsize hpalign).ok run
      exact hc.grown (hm.grown hs) hs (congrArg Kernel.dirs hm.rest :)
        (congrArg Kernel.dir hm.rest :)
  | kfree run =>
      obtain ⟨F', freeStart, freeEnd, hf⟩ := (kfree_ends hs hown.allocated).ok run
      exact hc.freed hf hs
  | write hx lower upper heip run =>
      exact hc.touch ((hown.write_ends hx lower upper heip _).ok run).1 hs.sound hs.linked
  | read page heip run =>
      exact hc.touch ((hown.read_ends page heip).ok run).1 hs.sound hs.linked

theorem HeapStep.scratched {σ σ' : HeapSystem} (h : HeapStep σ σ')
    (hown : Owned g F σ.live own σ.kernel) (hscr : Scratched σ.kernel) : Scratched σ'.kernel := by
  have hs := hown.valid
  cases h with
  | kmalloc hsize hpalign run =>
      obtain ⟨F', got, hm⟩ := (kmalloc_ends hs hsize hpalign).ok run
      exact hm.steps.scratched hscr
  | kfree run =>
      obtain ⟨F', freeStart, freeEnd, hf⟩ := (kfree_ends hs hown.allocated).ok run
      exact hf.steps.scratched hscr
  | write hx lower upper heip run =>
      exact ((hown.write_ends hx lower upper heip _).ok run).1.work.steps.scratched hscr
  | read page heip run =>
      exact ((hown.read_ends page heip).ok run).1.work.steps.scratched hscr

/-- The kernel has taken memory for its tables and directories. -/
theorem Started.of_grown (h : Scratched s) (hown : Owned g F live own s)
    (hg : Grown g True F F' s s') (hc : Coherent g s') : Started g live s' := by
  obtain ⟨own', hown'⟩ := hown.grown hg
  exact ⟨⟨F', own', hown'⟩, hg.steps.scratched h, hc⟩

theorem MemStep.started {σ σ' : HeapSystem} (h : MemStep σ σ')
    (hσ : Started g σ.live σ.kernel) : Started g σ'.live σ'.kernel := by
  obtain ⟨F, own, hown⟩ := hσ.owned
  cases h with
  | heap step =>
      obtain ⟨F', hown'⟩ := step.owned hown
      exact ⟨⟨F', own, hown'⟩, step.scratched hown hσ.scratched, step.coherent hown hσ.coherent⟩
  | getPage hd run =>
      obtain ⟨p, hp⟩ := getPage_eq_ok run
      obtain ⟨rfl, -⟩ | ⟨F', t, hm, -⟩ :=
        (getPageWith_of_mem (hown.running hσ.scratched) hd _).ok hp
      · exact hσ
      · exact .of_grown hσ.scratched hown hm.grown (hσ.coherent.made hm hown.valid)
  | fault hwalk run =>
      have hs := hown.valid
      obtain ⟨p, -, hp, hr⟩ := resolved_of_fault hs.sound hs.linked hσ.scratched hwalk run
      have htouch := hr.touch hs.sound hp
      exact ⟨⟨F, own, hown.resolved hr hp⟩, htouch.work.steps.scratched hσ.scratched,
        hσ.coherent.touch htouch hs.sound hs.linked⟩
  | clone hsrc run =>
      obtain ⟨F', hc⟩ := (cloneDirectory_ends (hown.running hσ.scratched) hsrc).ok run
      exact .of_grown hσ.scratched hown hc.grown (hσ.coherent.cloned hc hown.valid hsrc)
  | enable hd =>
      refine ⟨⟨F, own, hown.enable hd⟩, ⟨hσ.scratched.entry, hσ.scratched.ne⟩, ?_⟩
      exact hσ.coherent.congr hown.valid.linked rfl rfl
        (fun _ _ _ hb => ⟨hb.addr, hb.held, hb.place⟩) fun _ _ _ hb => ⟨hb.addr, hb.held, hb.place⟩

theorem MemRuns.started {σ σ' : HeapSystem} (h : MemRuns σ σ')
    (hσ : Started g σ.live σ.kernel) : Started g σ'.live σ'.kernel := by
  induction h with
  | refl => exact hσ
  | tail _ hstep ih => exact hstep.started ih

/-! ## Hardware and software -/

/-- What the processor reads of a directory is what the kernel has put there. -/
structure ViewsAgree (s : Kernel) (d : Word) : Prop where
  present : ∀ i, ((s.dir d).entries i).present = true ↔ (s.dir d).tables i ≠ null
  addr : ∀ i, (s.dir d).tables i ≠ null → ∀ d' ∈ s.dirs,
    physicalAddr s d' ((s.dir d).tables i) = some (frameAddr ((s.dir d).entries i).addr)
  /-- The entries lie behind the 1024 pointers to tables. -/
  phyaddr : ∀ d' ∈ s.dirs, physicalAddr s d' (d + 4096) = some (s.dir d).phyaddr

theorem and_mask_of_dvd {t : Word} (h : 4096 ∣ t.toNat) : t &&& 0xFFF = 0#32 := by
  apply BitVec.eq_of_toNat_eq
  rw [BitVec.toNat_and]
  change t.toNat &&& (2 ^ 12 - 1) = 0
  rw [Nat.and_two_pow_sub_one_eq_mod]
  omega

theorem Started.views (h : Started g live s) (hd : d ∈ s.dirs) : ViewsAgree s d := by
  obtain ⟨F, own, hown⟩ := h.owned
  have hs := hown.valid.sound
  have hl := hown.valid.linked
  refine ⟨(h.coherent.agrees d hd).present, fun i hi d' hd' => ?_, fun d' hd' => ?_⟩
  · have hback := (h.coherent.agrees d hd).backed i hi
    have hdvd := hs.frames.aligned _ (hl.mem_tables hd hi)
    rw [hback.physicalAddr hs hl hd', and_mask_of_dvd hdvd, BitVec.or_zero]
  · obtain ⟨f, hback, he⟩ := h.coherent.phyaddr d hd
    rw [hback.physicalAddr hs hl hd', he]

theorem initEmptyPages_dirs (hboot : Booted g s) (hinit : initEmptyPages s = (.ok (), s')) :
    s'.dirs = s.dirs :=
  ((initEmptyPages_ends hboot).ok hinit).2.1

theorem views_agree {s₁ : Kernel} {σ : HeapSystem} (hboot : Booted g s₀)
    (hinit : initEmptyPages s₀ = (.ok (), s₁)) (hrun : MemRuns ⟨s₁, 0⟩ σ) :
    ∀ d ∈ σ.kernel.dirs, ViewsAgree σ.kernel d := by
  intro d hd
  have hstart := ((initEmptyPages_ends hboot).ok hinit).1
  exact (hrun.started hstart).views hd

/-- The boot kernel when `Page::init` returns. -/
@[irreducible] def bootStarted : Kernel := (initEmptyPages bootKernel).2

theorem bootStarted_run : initEmptyPages bootKernel = (.ok (), bootStarted) := by
  rw [bootStarted]
  exact eq_ok_of_toOption (by decide +kernel)

theorem bootStarted_dirs : bootStarted.dirs = [0x2E0000] :=
  initEmptyPages_dirs bootKernel_booted bootStarted_run

/-! ## The tables that all directories share -/

/-- Loops whose bodies do the same. -/
theorem forPages_congr {body body' : Word → Prog Unit} {stop : Word} (I : Word → Kernel → Prop)
    (hstop : pageOf stop = stop)
    (hbody : ∀ i s, pageOf i = i → i < stop → I i s → body i s = body' i s ∧
      Ends (body i) s (fun _ s' => I (i + 0x1000) s') (fun _ _ => True)) :
    ∀ fuel i s, pageOf i = i → I i s →
      forPages body stop fuel i s = forPages body' stop fuel i s := by
  intro fuel
  induction fuel with
  | zero => exact fun _ _ _ _ => rfl
  | succ fuel ih =>
      intro i s hi hI
      rw [forPages, forPages]
      split
      · next hlt =>
          obtain ⟨heq, hends⟩ := hbody i s hi hlt hI
          have hnext := (next_page hi hstop hlt).2.1
          calc (body i >>= fun _ => forPages body stop fuel (i + 0x1000)) s
              = (body i >>= fun _ => forPages body' stop fuel (i + 0x1000)) s :=
                hends.bind_congr fun _ s' hI' => ih (i + 0x1000) s' hnext hI'
            _ = (body' i >>= fun _ => forPages body' stop fuel (i + 0x1000)) s := by
                rw [bind_apply, bind_apply, heq]
      · rfl

section Recursion

variable {k k' : Word → Nat → Prog Word}

/-- Where all tables exist, `lazy_alloc_interval` takes no memory. -/
theorem lazyAllocIntervalWith_congr {lo hi : Word} {user writable : Bool}
    (htables : ∀ i, lo ≤ i → i < hi → ∃ p, lookup s d i = some p) :
    lazyAllocIntervalWith k d lo hi user writable false s =
      lazyAllocIntervalWith k' d lo hi user writable false s := by
  rw [lazyAllocIntervalWith, lazyAllocIntervalWith, interval, interval]
  split
  · next halign =>
      refine forPages_congr (fun i s' => lo ≤ i ∧ s'.dir = s.dir) halign.2
        (fun i s' hi hlt hI => ?_) loopBound lo s halign.1 ⟨BitVec.le_refl lo, rfl⟩
      obtain ⟨hle, hdir⟩ := hI
      obtain ⟨p, hp⟩ := htables i hle hlt
      have hlook : lookup s' d i = some p := by
        rw [lookup, hdir]
        exact hp
      refine ⟨?_, ?_⟩
      · rw [bind_ok (getPageWith_of_lookup hlook), bind_ok (getPageWith_of_lookup hlook)]
      · rw [Ends.bind_of_ok (getPageWith_of_lookup hlook)]
        refine .of_ok (lazyAlloc_noFill s' p user writable) ⟨?_, hdir⟩
        have hnext := (next_page hi halign.2 hlt).1
        rw [BitVec.le_def] at hle ⊢
        omega
  · rfl

/-- Whatever `get_page` calls in need of a table, `kmalloc` does not get there. -/
theorem kmallocWith_congr (h : Valid g c F s) {size : Word} {palign : Nat}
    (hsize : size.toNat + 8 < 2 ^ 32) (hpalign : palign ≤ 22) :
    kmallocWith k size palign s = kmallocWith k' size palign s := by
  have hready : ¬ s.kheapFinishInit = false := by
    rw [h.linked.heapReady]
    decide
  simp only [kmallocWith, bind_apply, read_apply, if_neg hready]
  simp only [← bind_apply]
  refine (onHeap_reserve_ends h fun b hb => h.chosen_fits hsize hpalign hb).bind_congr ?_
  rintro ⟨start, got⟩ s₁ ⟨h', F', hfrees, hres, -, rfl⟩
  have hl := (h.reserve hfrees hres).linked
  simp only [bind_apply]
  rw [lazyAllocIntervalWith_congr]
  intro i hle hlt
  obtain ⟨hlo, hhi, hbegin, hend⟩ := reserved_bounds hres
  rw [BitVec.le_def, hlo] at hle
  rw [BitVec.lt_def, hhi] at hlt
  exact ⟨_, (hl.lookup_heap hl.current ⟨by omega, by omega⟩).1⟩

/-- `get_page` calls `kmalloc`, and nothing calls `kmalloc` again. -/
theorem getPageWith_kmalloc (h : Valid g c F s) (d addr : Word) :
    getPageWith kmalloc d addr s = getPageWith (kmallocAt 1) d addr s := by
  have hk : kmalloc sizeofTable 12 s = kmallocAt 1 sizeofTable 12 s :=
    kmallocWith_congr h (by decide) (by decide)
  simp only [getPageWith, bind_apply, read_apply]
  split
  · rw [bind_apply, bind_apply, hk]
  · rfl

end Recursion

/-- The index of a table of kernel code and data or of the kernel heap. -/
def KernelIdx (s : Kernel) (i : BitVec 10) : Prop :=
  i.toNat < s.kernelLowNtable ∨ (heapBeginIdx ≤ i.toNat ∧ i.toNat < heapEndIdx)

/-- All directories of the state `s` have the tables of the kernel as they were in the boot
directory of `boot`. -/
structure KernelCommon (boot s : Kernel) : Prop where
  common : ∀ d ∈ s.dirs, ∀ i, KernelIdx boot i → (s.dir d).tables i ≠ null ∧
    (s.dir d).tables i = (boot.dir boot.currentPageDir).tables i
  /-- All other tables have one place in one directory. -/
  own : ∀ d ∈ s.dirs, ∀ i, ¬ KernelIdx boot i → (s.dir d).tables i ≠ null →
    ∀ d' ∈ s.dirs, ∀ j, (s.dir d').tables j = (s.dir d).tables i → d' = d ∧ j = i
  /-- The entry of a heap address is the same in all directories. -/
  visible : ∀ a, HeapAddr a → ∃ p, ∀ d ∈ s.dirs, lookup s d a = some p
  /-- Whatever the allocator does, `get_page` of a heap address does not call it. -/
  heap : ∀ d ∈ s.dirs, ∀ a, HeapAddr a → ∀ k, ∃ p, getPageWith k d a s = (.ok p, s)
  /-- With `kmallocAt 1` a second call of `kmalloc` fails. -/
  depth : ∀ d ∈ s.dirs, ∀ a, getPageWith kmalloc d a s = getPageWith (kmallocAt 1) d a s

theorem Valid.kernelCommon {boot : Kernel} (h : Valid g c F s)
    (hlow : boot.kernelLowNtable = g.low)
    (htable : ∀ i, g.Shared i → (boot.dir boot.currentPageDir).tables i = g.table i) :
    KernelCommon boot s := by
  have hl := h.linked
  have hidx : ∀ i, KernelIdx boot i ↔ g.Shared i := fun i => by rw [KernelIdx, hlow, Layout.Shared]
  refine ⟨fun d hd i hi => ?_, fun d hd i hi hne d' hd' j hj => ?_, fun a ha => ?_,
    fun d hd a ha k => ?_, fun d _ a => getPageWith_kmalloc h d a⟩
  · rw [hidx] at hi
    rw [hl.shared d hd i hi, htable i hi]
    exact ⟨(hl.kernel i hi).2, rfl⟩
  · rw [hidx] at hi
    have hj' : ¬ g.Shared j := fun hshared =>
      (hl.owned.own d hd i hi hne).2 ⟨j, hshared, (hl.shared d' hd' j hshared).symm.trans hj⟩
    obtain ⟨hd, hi⟩ := hl.owned.unique d hd d' hd' i j hi hj' hne hj.symm
    exact ⟨hd.symm, hi.symm⟩
  · exact ⟨g.slot a, fun d hd => (hl.lookup_heap hd ha).1⟩
  · exact ⟨g.slot a, getPageWith_of_lookup (hl.lookup_heap hd ha).1⟩

theorem kernel_common {s₁ : Kernel} {σ : HeapSystem} (hboot : Booted g s₀)
    (hinit : initEmptyPages s₀ = (.ok (), s₁)) (hrun : MemRuns ⟨s₁, 0⟩ σ) :
    KernelCommon s₁ σ.kernel := by
  obtain ⟨hstart, -, -, -⟩ := (initEmptyPages_ends hboot).ok hinit
  obtain ⟨F₁, own₁, hown₁⟩ := hstart.owned
  obtain ⟨F, own, hown⟩ := (hrun.started hstart).owned
  have hl₁ := hown₁.valid.linked
  exact hown.valid.kernelCommon hl₁.low (hl₁.shared _ hl₁.current)

end Jkos.Page
