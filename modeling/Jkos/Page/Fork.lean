import Jkos.Page.Agree

/-!
# Cloning tables and directories

`clone_table` gives the clone the entries of the source, and takes the write permission
from both where there is a frame. `clone_directory` links the tables of the kernel, copies
the page of the kernel stack and clones the other tables. Everything it takes for the new
directory was free before, and what the directories in existence show stays the same.
-/

namespace Jkos.Page

open Exec Kheap

variable {g : Layout} {c : Prop} {K : Set Slot} {s s' s'' : Kernel} {p q : Slot}
  {F F' F'' : Multiset Block} {D : List Word} {d d' t t' dest src : Word} {i j : BitVec 10}

/-- A loop over the indices of a table. -/
theorem forIdx_ends {body : BitVec 10 → Prog Unit} {E : Fault → Kernel → Prop}
    (I : Nat → Kernel → Prop) {cnt n : Nat}
    (hbody : ∀ i s, n ≤ i → i < n + cnt → I i s →
      Ends (body (BitVec.ofNat 10 i)) s (fun _ s' => I (i + 1) s') E) (hI : I n s) :
    Ends (forIdx body cnt n) s (fun _ s' => I (n + cnt) s') E := by
  induction cnt generalizing n s with
  | zero => exact hI
  | succ cnt ih =>
      refine Ends.bind (hbody n s (Nat.le_refl n) (by omega) hI) fun _ s' hI' => ?_
      have hrest := @ih s' (n + 1) (fun i s h₁ h₂ => hbody i s (by omega) (by omega)) hI'
      rwa [show n + 1 + cnt = n + (cnt + 1) by omega] at hrest

/-- Work on entries that did not exist. -/
theorem Grown.work (h : Grown g c F F' s s') (hw : Work g c K s' s'')
    (hK : ∀ p ∈ K, p.table ∉ g.kernel ∧ p.table ∉ s.tables) : Grown g c F F' s s'' := by
  have hpage : ∀ q, q.table ∈ g.kernel → Editable g s' q → s''.page q = s'.page q :=
    fun q hk hq => (hw.steps.kept hq fun hmem => (hK q hmem).1 hk).of_kernel hk
  refine ⟨h.valid.work hw, h.env.trans hw.env, hw.tables_eq ▸ h.tables, hw.tables_eq ▸ h.newTables,
    hw.dirs_eq ▸ h.newDirs, h.steps.trans (hw.steps.mono fun p hp => .inr (hK p hp).2), h.took,
    h.separate, fun q hk hq hopen => ?_, fun q hk hq hheld => ?_,
    fun hc b w hb hscratch hzero hcell => ?_⟩
  · rw [Opened, hpage q hk (h.steps.editable hq)]
    exact h.opened q hk hq hopen
  · rw [hpage q hk (h.steps.editable hq)]
    exact h.fixed q hk hq hheld
  · obtain ⟨hheld, hw'⟩ := h.cells hc b w hb hscratch hzero hcell
    have hl := h.valid.linked
    have hk := (hl.lookup_heap hl.current hb).2
    have hedit := hl.editable_heap hb fun hs => hscratch ((h.env.scratchPage_iff b).mp hs)
    have hphys := hw.steps.phys_kept hc h.valid.sound hedit fun hmem => (hK _ hmem).1 hk
    rw [HeapCell, hpage _ hk hedit, hphys]
    exact ⟨hheld, hw'⟩

/-! ## `clone_table` -/

section CloneEntry

variable (hs : Sound g c s) (hdest : Editable g s ⟨dest, i⟩) (hsrc : Editable g s ⟨src, i⟩)
  (destUser : dest ∉ g.kernel) (srcUser : src ∉ g.kernel)
  (hzero : s.page ⟨dest, i⟩ = TableEntry.zero)
include hs hdest hsrc destUser srcUser hzero

theorem cloneEntry_work : Work g c {⟨dest, i⟩} s (cloneEntry dest src i s).2 := by
  by_cases hheld : (s.page ⟨src, i⟩).addr = 0
  · have he : (cloneEntry dest src i s).2 = s.setEntry ⟨dest, i⟩ (fun _ => s.page ⟨src, i⟩) :=
      if_pos hheld
    have haddr : (s.page ⟨dest, i⟩).addr = 0 := by rw [hzero]; rfl
    rw [he]
    exact .single (.flags _ _ rfl hdest (by rw [hheld, haddr]) (fun _ => hs.shaped _ hsrc)
      fun _ _ hne => absurd haddr hne) rfl
  · refine .single (.share dest src i rfl hdest hsrc destUser srcUser (by rw [hzero]; rfl) hheld) ?_
    rw [cloneEntry_of_held hheld]
    rfl

omit hs hdest hsrc destUser srcUser hzero in
/-- The clone has the entry of the source. -/
theorem cloneEntry_weaker :
    Weaker (s.page ⟨src, i⟩) ((cloneEntry dest src i s).2.page ⟨dest, i⟩) := by
  by_cases hheld : (s.page ⟨src, i⟩).addr = 0
  · have he : (cloneEntry dest src i s).2 = s.setEntry ⟨dest, i⟩ (fun _ => s.page ⟨src, i⟩) :=
      if_pos hheld
    rw [he, Kernel.page_setEntry_self]
    exact .refl
  · rw [cloneEntry_of_held hheld, Kernel.page_setRef, Kernel.page_setEntry_self]
    exact .inr rfl

end CloneEntry

/-- The loop of `clone_table` has reached the index `n`. -/
structure TableLoop (g : Layout) (c : Prop) (dest src : Word) (s : Kernel) (n : Nat) (s' : Kernel) :
    Prop where
  work : Work g c {p | p.table = dest} s s'
  done : ∀ j : BitVec 10, j.toNat < n → Weaker (s.page ⟨src, j⟩) (s'.page ⟨dest, j⟩)
  todo : ∀ j : BitVec 10, n ≤ j.toNat → s'.page ⟨dest, j⟩ = TableEntry.zero

theorem Weaker.eq_zero {e : TableEntry} (h : Weaker TableEntry.zero e) : e = TableEntry.zero := by
  rcases h with rfl | rfl <;> rfl

theorem TableLoop.next {n : Nat} (h : TableLoop g c dest src s n s') (hn : n < 1024)
    (hs : Sound g c s) (hdest : ∀ j, Editable g s ⟨dest, j⟩) (hsrc : ∀ j, Editable g s ⟨src, j⟩)
    (destUser : dest ∉ g.kernel) (srcUser : src ∉ g.kernel) (hne : src ≠ dest) :
    TableLoop g c dest src s (n + 1) (cloneEntry dest src (BitVec.ofNat 10 n) s').2 := by
  have hi : (BitVec.ofNat 10 n).toNat = n := by
    rw [BitVec.toNat_ofNat]
    exact Nat.mod_eq_of_lt hn
  have hstep := cloneEntry_work (h.work.steps.sound hs)
    (h.work.steps.editable (hdest (BitVec.ofNat 10 n))) (h.work.steps.editable (hsrc _))
    destUser srcUser (h.todo _ (by rw [hi]))
  have hkept : ∀ j : BitVec 10, j.toNat ≠ n → Weaker (s'.page ⟨dest, j⟩)
      ((cloneEntry dest src (BitVec.ofNat 10 n) s').2.page ⟨dest, j⟩) := by
    intro j hj
    refine (hstep.steps.kept (h.work.steps.editable (hdest j)) fun e => hj ?_).weaker
    rw [(Slot.mk.inj e).2, hi]
  refine ⟨h.work.trans (hstep.mono fun p hp => hp ▸ rfl), fun j hj => ?_, fun j hj => ?_⟩
  · by_cases hjn : j.toNat = n
    · obtain rfl : j = BitVec.ofNat 10 n := BitVec.eq_of_toNat_eq (hjn.trans hi.symm)
      exact (h.work.steps.kept (hsrc _) hne).weaker.trans cloneEntry_weaker
    · exact (h.done j (by omega)).trans (hkept j hjn)
  · have := hkept j (by omega)
    rw [h.todo j (by omega)] at this
    exact this.eq_zero

/-- A copy-on-write clone of the table at `src`. -/
structure TableCloned (g : Layout) (c : Prop) (F F' : Multiset Block) (src dest : Word)
    (s s' : Kernel) : Prop where
  grown : Grown g c F F' s s'
  fresh : dest ∉ s.tables
  tables : s'.tables = dest :: s.tables
  dirs : s'.dirs = s.dirs
  dir : s'.dir = s.dir
  resident : Resident g s' dest
  weaker : ∀ j, Weaker (s.page ⟨src, j⟩) (s'.page ⟨dest, j⟩)

/-- Clearing a new table and running the loop over it. -/
theorem cloneLoop_ends (hnew : NewTable g c F F' dest s s') (h : Running g c F s)
    (hmem : src ∈ s.tables) (hk : src ∉ g.kernel) {cnt : Nat} (hcnt : cnt ≤ 1024) :
    Ends (forIdx (cloneEntry dest src) cnt 0) s' (fun _ s'' => TableLoop g c dest src s' cnt s'')
      (fun e _ => e.Exhausted) := by
  have hl := hnew.grown.valid.linked
  have hdest : ∀ j, Editable g s' ⟨dest, j⟩ := fun j =>
    hl.editable_user (hnew.tables ▸ List.mem_cons_self) (h.notMem_kernel hnew.fresh)
  have hsrc : ∀ j, Editable g s' ⟨src, j⟩ := fun j =>
    hl.editable_user (hnew.grown.tables hmem) hk
  have hne : src ≠ dest := fun e => hnew.fresh (e ▸ hmem)
  have hbegin : TableLoop g c dest src s' 0 s' :=
    ⟨.refl, fun j hj => absurd hj (Nat.not_lt_zero _), fun j _ => hnew.zero j⟩
  refine (forIdx_ends (TableLoop g c dest src s') (fun n s'' _ hn hloop => ?_) hbegin).mono
    (fun _ s'' hloop => by rwa [Nat.zero_add] at hloop) (fun _ _ h => h)
  exact .of_ok (modify_apply _ _) (hloop.next (by omega) hnew.grown.valid.sound hdest hsrc
    (h.notMem_kernel hnew.fresh) hk hne)

theorem TableLoop.cloned (hloop : TableLoop g c dest src s' 1024 s'')
    (hnew : NewTable g c F F' dest s s') (hdir : s'.dir = s.dir) (h : Running g c F s)
    (hmem : src ∈ s.tables) (hk : src ∉ g.kernel) : TableCloned g c F F' src dest s s'' := by
  have hl := hnew.grown.valid.linked
  have hkernel := h.notMem_kernel hnew.fresh
  have hres := hnew.resident
  have hslot : s''.page (g.slot dest) = s'.page (g.slot dest) := by
    have hk' := (hl.lookup_heap hl.current hres.heap).2
    exact (hloop.work.steps.kept (hl.editable_heap hres.heap hres.scratch)
      fun e : (g.slot dest).table = dest => hkernel (e ▸ hk')).of_kernel hk'
  refine ⟨hnew.grown.work hloop.work ?_, hnew.fresh, hloop.work.tables_eq.trans hnew.tables,
    hloop.work.dirs_eq.trans hnew.dirs, hloop.work.dir_eq.trans hdir,
    ⟨hres.heap, fun hs => hres.scratch ((hloop.work.scratchPage_iff dest).mp hs), ?_, ?_⟩,
    fun j => ?_⟩
  · rintro p rfl
    exact ⟨hkernel, hnew.fresh⟩
  · rw [Opened, hslot]
    exact hres.opened
  · rw [hslot]
    exact hres.held
  · have hfirst := (hnew.grown.steps.kept (p := ⟨src, j⟩) (h.linked.editable_user hmem hk)
      fun hf => hf.elim hk fun hnot => hnot hmem).weaker
    exact hfirst.trans (hloop.done j j.isLt)

theorem cloneTable_ends (h : Running g c F s) (hmem : src ∈ s.tables) (hk : src ∉ g.kernel) :
    Ends (cloneTable src) s (fun dest s' => ∃ F', TableCloned g c F F' src dest s s')
      (fun e _ => e.Exhausted) := by
  -- the bound of the loop must not be unfolded
  obtain ⟨cnt, hcnt⟩ : ∃ cnt, cnt = 1024 := ⟨_, rfl⟩
  rw [cloneTable, ← hcnt]
  refine Ends.bind (kmalloc_ends h.toValid (by decide) (by decide)) ?_
  rintro dest s₁ ⟨F', got, hm⟩
  have htables₁ : s₁.tables = s.tables := (congrArg Kernel.tables hm.rest :)
  have hdirs₁ : s₁.dirs = s.dirs := (congrArg Kernel.dirs hm.rest :)
  have hdir₁ : s₁.dir = s.dir := (congrArg Kernel.dir hm.rest :)
  refine (Ends.bind_of_ok (modify_apply _ _)).mpr ?_
  refine Ends.bind (newTable_ends hm h (hm.newTable_grown h) rfl (htables₁ ▸ rfl) hdirs₁) ?_
  rintro - s₂ ⟨hnew, hdir₂⟩
  refine Ends.bind (cloneLoop_ends hnew h hmem hk hcnt.le) ?_
  rintro - s₃ hloop
  rw [hcnt] at hloop
  exact ⟨F', hloop.cloned hnew (hdir₂.trans hdir₁) h hmem hk⟩

/-! ## Linking the tables of the kernel -/

/-- The directory with the tables of `y` from the index `lo` to before `hi`. -/
def Directory.link (x y : Directory) (lo hi : Nat) : Directory :=
  { x with
    tables := fun i => if lo ≤ i.toNat ∧ i.toNat < hi then y.tables i else x.tables i
    entries := fun i => if lo ≤ i.toNat ∧ i.toNat < hi then y.entries i else x.entries i }

theorem Kernel.setDir_setDir (s : Kernel) (d : Word) (m m' : Directory → Directory) :
    (s.setDir d m).setDir d m' = s.setDir d (fun x => m' (m x)) := by
  simp only [Kernel.setDir, if_true]
  congr 1
  funext q
  split <;> rfl

theorem Kernel.setDir_eq_self {m : Directory → Directory} (h : m (s.dir d) = s.dir d) :
    s.setDir d m = s := by
  have hdir : (fun q => if q = d then m (s.dir d) else s.dir q) = s.dir := by
    funext q
    split
    · next e => rw [h, e]
    · rfl
  rw [Kernel.setDir, hdir]

theorem Directory.link_empty (x y : Directory) (n : Nat) : x.link y n n = x := by
  have hnot : ∀ i : BitVec 10, ¬ (n ≤ i.toNat ∧ i.toNat < n) := fun i => by omega
  simp only [Directory.link, if_neg (hnot _)]

theorem Directory.link_succ (x y : Directory) {lo n : Nat} (hlo : lo ≤ n) (hn : n < 1024) :
    ({ x.link y lo n with
      tables := fun j => if j = BitVec.ofNat 10 n then y.tables (BitVec.ofNat 10 n)
        else (x.link y lo n).tables j
      entries := fun j => if j = BitVec.ofNat 10 n then y.entries (BitVec.ofNat 10 n)
        else (x.link y lo n).entries j } : Directory) = x.link y lo (n + 1) := by
  have hi : (BitVec.ofNat 10 n).toNat = n := by
    rw [BitVec.toNat_ofNat]
    exact Nat.mod_eq_of_lt hn
  have hcase : ∀ j : BitVec 10, j ≠ BitVec.ofNat 10 n →
      ((lo ≤ j.toNat ∧ j.toNat < n + 1) ↔ (lo ≤ j.toNat ∧ j.toNat < n)) := by
    intro j hj
    have : j.toNat ≠ n := fun e => hj (BitVec.eq_of_toNat_eq (e.trans hi.symm))
    omega
  have hself : lo ≤ (BitVec.ofNat 10 n).toNat ∧ (BitVec.ofNat 10 n).toNat < n + 1 := by
    rw [hi]
    omega
  simp only [Directory.link]
  congr 1
  · funext j
    by_cases hj : j = BitVec.ofNat 10 n
    · rw [if_pos hj, hj, if_pos hself]
    · rw [if_neg hj]
      simp only [hcase j hj]
  · funext j
    by_cases hj : j = BitVec.ofNat 10 n
    · rw [if_pos hj, hj, if_pos hself]
    · rw [if_neg hj]
      simp only [hcase j hj]

theorem linkTables_ends (hne : src ≠ dest) {lo cnt : Nat} (hle : lo + cnt ≤ 1024)
    {E : Fault → Kernel → Prop} :
    Ends (forIdx (linkTable dest src) cnt lo) s
      (fun _ s' => s' = s.setDir dest (·.link (s.dir src) lo (lo + cnt))) E := by
  refine forIdx_ends (fun n s' => s' = s.setDir dest (·.link (s.dir src) lo n))
    (fun n s' hlo hn hs' => ?_) ?_
  · subst hs'
    refine .of_ok (modify_apply _ _) ?_
    simp only [Kernel.setDir_setDir, Kernel.dir_setDir_of_ne _ _ hne]
    congr 1
    funext x
    exact Directory.link_succ x _ hlo (by omega)
  · exact (Kernel.setDir_eq_self (Directory.link_empty _ _ _)).symm

theorem Agrees.link {x y : Directory} (hx : Agrees g s x) (hy : Agrees g s y) (lo hi : Nat) :
    Agrees g s (x.link y lo hi) := by
  refine ⟨fun i => ?_, fun i hne => ?_⟩
  · by_cases hin : lo ≤ i.toNat ∧ i.toNat < hi
    · simp only [Directory.link, if_pos hin]
      exact hy.present i
    · simp only [Directory.link, if_neg hin]
      exact hx.present i
  · by_cases hin : lo ≤ i.toNat ∧ i.toNat < hi
    · simp only [Directory.link, if_pos hin] at hne ⊢
      exact hy.backed i hne
    · simp only [Directory.link, if_neg hin] at hne ⊢
      exact hx.backed i hne

/-! ## `clone_directory` -/

/-- The index of a table of the user range. -/
def Layout.User (g : Layout) (i : BitVec 10) : Prop := g.low ≤ i.toNat ∧ i.toNat < heapBeginIdx

theorem Layout.User.not_shared (h : g.User i) : ¬ g.Shared i := by
  rintro (hlow | ⟨hheap, -⟩)
  · exact absurd h.1 (Nat.not_le.mpr hlow)
  · exact absurd h.2 (Nat.not_lt.mpr hheap)

/-- The table at `t'` has the entries that the table at `t` had, if there was one. -/
def CloneOf (s s' : Kernel) (t t' : Word) : Prop :=
  (t = null ∧ t' = null) ∨
    (t ≠ null ∧ t' ≠ null ∧ ∀ o, Weaker (s.page ⟨t, o⟩) (s'.page ⟨t', o⟩))

/-- The directory at `dest` is complete but for the tables of the user range from the
index `n` on, and does not count as a directory yet. -/
structure Building (g : Layout) (c : Prop) (F F' : Multiset Block) (src dest : Word) (s : Kernel)
    (n : Nat) (s' : Kernel) : Prop where
  grown : Grown g c F F' s s'
  space : ∀ k < sizeofDirectory.toNat,
    0 < depthOf F (dest.toNat + k) ∧ depthOf F' (dest.toNat + k) = 0
  dirs : s'.dirs = s.dirs
  others : ∀ d, d ≠ dest → s'.dir d = s.dir d
  shared : ∀ i, g.Shared i → (s'.dir dest).tables i = g.table i
  owned : OwnTables g s' (dest :: s.dirs)
  phyaddr : (s'.dir dest).phyaddr =
    frameAddr (s'.page (g.slot (dest + 4096))).addr ||| ((dest + 4096) &&& 0xFFF)
  resident : Resident g s' (dest + 4096)
  agrees : Agrees g s (s.dir src) → Agrees g s' (s'.dir dest)
  clones : ∀ i, g.User i → i.toNat < n → CloneOf s s' ((s.dir src).tables i) ((s'.dir dest).tables i)
  todo : ∀ i, g.User i → n ≤ i.toNat → (s'.dir dest).tables i = null

/-- Free memory holds no directory. -/
theorem Valid.notMem_dirs (h : Valid g c F s)
    (hpos : ∀ k < sizeofDirectory.toNat, 0 < depthOf F (d.toNat + k)) : d ∉ s.dirs :=
  fun hd => (hpos 0 (by decide)).ne' (h.heap.dirs d hd 0 (by decide))

/-- A directory without tables of its own. -/
theorem OwnTables.cons (h : OwnTables g s D)
    (hnull : ∀ i, ¬ g.Shared i → (s.dir d).tables i = null) : OwnTables g s (d :: D) := by
  refine ⟨fun d₁ hd₁ i hi hne => ?_, fun d₁ hd₁ d₂ hd₂ i j hi hj hne he => ?_⟩
  · obtain rfl | hd₁ := List.mem_cons.mp hd₁
    · exact absurd (hnull i hi) hne
    · exact h.own d₁ hd₁ i hi hne
  · obtain rfl | hd₁ := List.mem_cons.mp hd₁
    · exact absurd (hnull i hi) hne
    · obtain rfl | hd₂ := List.mem_cons.mp hd₂
      · exact absurd (he.trans (hnull j hj)) hne
      · exact h.unique d₁ hd₁ d₂ hd₂ i j hi hj hne he

/-- The frame of the entries of a directory in the making stays where it is. -/
theorem Resident.addr_grown (h : Resident g s d) (hg : Grown g c F F' s s') (hs : Valid g c F s) :
    (s'.page (g.slot d)).addr = (s.page (g.slot d)).addr :=
  hg.fixed _ (hs.linked.lookup_heap hs.linked.current h.heap).2
    (hs.linked.editable_heap h.heap h.scratch) h.held

/-- The kernel goes on with the new directory. -/
theorem Building.extend {n n' : Nat} (h : Building g c F F' src dest s n s')
    (hg : Grown g c F' F'' s' s'') (hdirs : s''.dirs = s'.dirs)
    (hothers : ∀ d, d ≠ dest → s''.dir d = s'.dir d)
    (htables : ∀ i, g.Shared i ∨ i.toNat < n → (s''.dir dest).tables i = (s'.dir dest).tables i)
    (hphy : (s''.dir dest).phyaddr = (s'.dir dest).phyaddr)
    (howned : OwnTables g s'' (dest :: s.dirs))
    (hagrees : Agrees g s (s.dir src) → Agrees g s'' (s'.dir dest) → Agrees g s'' (s''.dir dest))
    (hnew : ∀ i, g.User i → n ≤ i.toNat → i.toNat < n' →
      CloneOf s s'' ((s.dir src).tables i) ((s''.dir dest).tables i))
    (htodo : ∀ i, g.User i → n' ≤ i.toNat → (s''.dir dest).tables i = null) :
    Building g c F F'' src dest s n' s'' := by
  have hvalid := h.grown.valid
  refine ⟨h.grown.trans hg, fun k hk => ⟨(h.space k hk).1, ?_⟩, hdirs.trans h.dirs,
    fun d hd => (hothers d hd).trans (h.others d hd),
    fun i hi => (htables i (.inl hi)).trans (h.shared i hi), howned, ?_,
    h.resident.grown hg hvalid, fun hsrc => ?_, fun i hi hlt => ?_, htodo⟩
  · have := hg.le (dest.toNat + k)
    have := (h.space k hk).2
    omega
  · rw [hphy, h.resident.addr_grown hg hvalid]
    exact h.phyaddr
  · exact hagrees hsrc ((h.agrees hsrc).grown hg hvalid)
  · by_cases hin : i.toNat < n
    · rw [htables i (.inr hin)]
      obtain hnull | ⟨h₁, h₂, hweak⟩ := h.clones i hi hin
      · exact .inl hnull
      · -- the tables of the new directory are not touched again
        obtain ⟨hmem, hk⟩ := h.owned.own dest List.mem_cons_self i hi.not_shared h₂
        refine .inr ⟨h₁, h₂, fun o => (hweak o).trans ?_⟩
        exact (hg.steps.kept (p := ⟨_, o⟩) (hvalid.linked.editable_user hmem hk)
          fun hf => hf.elim hk fun hnot => hnot hmem).weaker
    · exact hnew i hi (Nat.not_lt.mp hin) hlt

/-- The directory with the tables of the kernel and nothing else. -/
def Directory.shell (y : Directory) (low : Nat) (phyaddr : Word) : Directory :=
  (({ Directory.zero with phyaddr := phyaddr } : Directory).link y 0 low).link y heapBeginIdx
    heapEndIdx

theorem shell_shared {x : Directory} {w : Word} (hi : g.Shared i) :
    (x.shell g.low w).tables i = x.tables i := by
  simp only [Directory.shell, Directory.link]
  obtain hlow | hheap := hi
  · rw [if_pos (show 0 ≤ i.toNat ∧ i.toNat < g.low from ⟨Nat.zero_le _, hlow⟩)]
    exact ite_self _
  · exact if_pos hheap

theorem shell_own {x : Directory} {w : Word} (hi : ¬ g.Shared i) :
    (x.shell g.low w).tables i = null := by
  rw [Layout.Shared, not_or] at hi
  have hlow : ¬ (0 ≤ i.toNat ∧ i.toNat < g.low) := fun h => hi.1 h.2
  simp only [Directory.shell, Directory.link]
  rw [if_neg hi.2, if_neg hlow]
  rfl

theorem Agrees.shell {x : Directory} (h : Agrees g s x) (low : Nat) (w : Word) :
    Agrees g s (x.shell low w) := by
  have hnull : Agrees g s Directory.zero := Agrees.zero
  have hzero : Agrees g s ({ Directory.zero with phyaddr := w } : Directory) :=
    ⟨hnull.present, hnull.backed⟩
  exact (hzero.link h 0 low).link h heapBeginIdx heapEndIdx

/-- A new directory before its own tables are made. -/
theorem building_of_shell {w : Word} (h : Valid g c F s) (hsrc : src ∈ s.dirs)
    (hg : Grown g c F F' s s') (hspace : ∀ k < sizeofDirectory.toNat,
      0 < depthOf F (dest.toNat + k) ∧ depthOf F' (dest.toNat + k) = 0)
    (hdirs : s'.dirs = s.dirs) (hdir : s'.dir = (s.setDir dest fun _ => (s.dir src).shell g.low w).dir)
    (hw : w = frameAddr (s'.page (g.slot (dest + 4096))).addr ||| ((dest + 4096) &&& 0xFFF))
    (hres : Resident g s' (dest + 4096)) :
    Building g c F F' src dest s g.low s' ∧ (s'.dir dest).tables 1023 = null := by
  have hdest : s'.dir dest = (s.dir src).shell g.low w := by
    rw [hdir, Kernel.dir_setDir_self]
  have hothers : ∀ d, d ≠ dest → s'.dir d = s.dir d := fun d hd => by
    rw [hdir, Kernel.dir_setDir_of_ne _ _ hd]
  have hown : ∀ i, ¬ g.Shared i → (s'.dir dest).tables i = null := fun i hi => by
    rw [hdest]
    exact shell_own hi
  refine ⟨⟨hg, hspace, hdirs, hothers, fun i hi => ?_, ?_, by rw [hdest]; exact hw, hres,
    fun hag => ?_, fun i hi hlt => absurd hi.1 (Nat.not_le.mpr hlt),
    fun i hi _ => hown i hi.not_shared⟩, hown _ ?_⟩
  · rw [hdest, shell_shared hi]
    exact h.linked.shared src hsrc i hi
  · have := hg.valid.linked.owned
    rw [hdirs] at this
    exact this.cons hown
  · rw [hdest]
    exact (hag.grown hg h).shell _ _
  · have hlow := h.linked.lowLe
    rw [Layout.Shared, heapEndIdx_eq, not_or]
    rw [heapBeginIdx_eq] at hlow
    exact ⟨by change ¬ 1023 < g.low; omega, fun hin => absurd hin.2 (by decide)⟩

/-- Clearing the memory of a new directory. -/
theorem newDirectory_ends {got : Block} {s₁ : Kernel}
    (hm : Malloced g c F F' sizeofDirectory 12 dest got s s₁) (h : Valid g c F s) :
    Ends (memset dest 0 sizeofDirectory.toNat) (s₁.setDir dest fun _ => Directory.zero)
      (fun _ s' => Grown g c F F' s s' ∧ s'.dirs = s.dirs ∧
        s'.dir = (s.setDir dest fun _ => Directory.zero).dir ∧ Resident g s' (dest + 4096))
      (fun e _ => e.Exhausted) := by
  have hdirs₁ : s₁.dirs = s.dirs := (congrArg Kernel.dirs hm.rest :)
  have hdir₁ : s₁.dir = s.dir := (congrArg Kernel.dir hm.rest :)
  have hgrown := hm.grown h
  have hfree := fun x h₁ h₂ => (hm.payload_free h (x := x) h₁ h₂).1
  have hnot : dest ∉ s₁.dirs := by
    rw [hdirs₁]
    exact h.notMem_dirs fun k hk => hfree _ (Nat.le_add_right _ _) (Nat.add_lt_add_left hk _)
  have hg := hgrown.setDir (hgrown.valid.linked.setDir_of_notMem hnot fun _ => Directory.zero)
  have hbounds := hm.heapAddr
  have hsize : sizeofDirectory.toNat = 8196 := rfl
  rw [hsize] at hbounds
  have hopen : OpenRange g (s₁.setDir dest fun _ => Directory.zero) dest sizeofDirectory.toNat :=
    hm.openRange
  have hl := hg.valid.linked
  refine (memset_ends hg.valid.sound hl (by omega) hopen 0).mono ?_ ?_
  · rintro - s' hz
    have hnat : (dest + 4096).toNat = dest.toNat + 4096 := by
      rw [BitVec.toNat_add]
      exact Nat.mod_eq_of_lt (by change dest.toNat + 4096 < 2 ^ 32; omega)
    obtain ⟨hheap, hscratch, hopened⟩ := hopen (dest + 4096) (by omega) (by omega)
    refine ⟨hg.zeroed hz hopen hfree, hz.touch.work.dirs_eq.trans hdirs₁, ?_,
      ⟨hheap, fun hs => hscratch ((hz.touch.work.scratchPage_iff _).mp hs),
        hopened.touch hz.touch (hl.editable_heap hheap hscratch) hl.code,
        hz.held _ (by omega) (by omega)⟩⟩
    rw [hz.touch.work.dir_eq]
    simp only [Kernel.setDir, hdir₁]
  · rintro _ - rfl
    exact trivial

/-- `get_physical_addr` of a page that is not to be allocated only reads. -/
theorem getPhysicalAddr_reads (s : Kernel) (d a : Word) (user writable : Bool) :
    ∃ w, getPhysicalAddr d a false user writable s = (.ok w, s) := by
  by_cases hinit : s.initFinished = false
  · exact ⟨a, by simp only [getPhysicalAddr, bind_apply, read_apply, if_pos hinit, pure_apply]⟩
  · cases hlook : lookup s d a with
    | none =>
        exact ⟨0, by simp only [getPhysicalAddr, bind_apply, read_apply, if_neg hinit, hlook,
          pure_apply]⟩
    | some p =>
        by_cases hzero : (s.page p).addr = 0
        · exact ⟨0, by simp only [getPhysicalAddr, bind_apply, read_apply, if_neg hinit, hlook,
            if_pos hzero, if_true, pure_apply]⟩
        · exact ⟨frameAddr (s.page p).addr ||| (a &&& 0xFFF), by simp only [getPhysicalAddr,
            bind_apply, read_apply, if_neg hinit, hlook, if_neg hzero, pure_apply]⟩

/-- The kernel stack is copied to a frame of its own. -/
theorem copyStack_ends {a : Word} (h : Running g c F s) (hi : ¬ g.Shared (tbIdx a))
    (hnull : (s.dir d).tables (tbIdx a) = null) (ha : a &&& 0xFFF = 0) :
    Ends (copyStack d a) s
      (fun _ s'' => ∃ F' t s', Made g c F F' d (tbIdx a) t s s' ∧
        Work g c {⟨t, tbOffset a⟩} s' s'')
      (fun e _ => e.Exhausted) := by
  refine Ends.bind (getPageWith_ends h hi hnull) ?_
  rintro p s₁ ⟨F', t, hmade, rfl⟩
  have hl₁ := hmade.grown.valid.linked
  have hedit : Editable g s₁ ⟨t, tbOffset a⟩ :=
    hl₁.editable_user (hmade.tables ▸ List.mem_cons_self) (h.notMem_kernel hmade.fresh)
  have hlook : lookup s₁ d a = some ⟨t, tbOffset a⟩ := by
    have htable : (s₁.dir d).tables (tbIdx a) = t := by
      rw [hmade.dir, Kernel.dir_setDir_self]
      exact if_pos rfl
    rw [lookup, htable, if_neg hmade.ne_null]
  have hzero : (s₁.page ⟨t, tbOffset a⟩).addr = 0 := by
    rw [hmade.zero]
    rfl
  have hphys : Ends (getPhysicalAddr d a true false true) s₁
      (fun w s' => Work g c {⟨t, tbOffset a⟩} s₁ s' ∧ (s'.page ⟨t, tbOffset a⟩).addr ≠ 0 ∧
        (s'.page ⟨t, tbOffset a⟩).rw = true ∧ w = frameAddr (s'.page ⟨t, tbOffset a⟩).addr)
      (fun e _ => e.Exhausted) := by
    have hrun : getPhysicalAddr d a true false true s₁ = (do
        alloc ⟨t, tbOffset a⟩ false true
        pure (frameAddr (← read (·.page ⟨t, tbOffset a⟩)).addr ||| (a &&& 0xFFF)) : Prog Word) s₁ := by
      simp only [getPhysicalAddr, bind_apply, read_apply, hl₁.finished, Bool.true_eq_false, if_false,
        hlook, hzero, if_true]
    rw [Ends, hrun]
    refine Ends.bind ((alloc_ends s₁ _ false true).mono (fun _ _ h => h) ?_) ?_
    · rintro _ - rfl
      exact trivial
    · rintro - s₂ hall
      have hself := hall.page_self hmade.grown.valid.sound.frames
      refine ⟨hall.work rfl hedit fun _ _ hne => absurd hzero hne, hself.1, hself.2.1, ?_⟩
      rw [ha]
      exact BitVec.or_zero
  refine Ends.bind hphys ?_
  rintro w s₂ ⟨hwork, hheld, hrw, rfl⟩
  have hs₂ := hwork.steps.sound hmade.grown.valid.sound
  have hedit₂ := hwork.steps.editable hedit
  rw [Ends.bind_read]
  obtain ⟨w, hw⟩ := getPhysicalAddr_reads s₂ s₂.currentPageDir a false true
  refine (Ends.bind_of_ok hw).mpr ?_
  have hcopy := copyPagePhysical_work (c := c) (K := {⟨t, tbOffset a⟩}) hedit₂ rfl hheld
    (fun hc => .inr (hs₂.exclusive hc _ hedit₂ hheld (.inl hrw))) w
  exact .of_ok (copyPagePhysical_apply _ _ _) ⟨F', t, s₁, hmade, hwork.trans (by
    rwa [copyPagePhysical_apply] at hcopy)⟩

/-- The directory has a table for the kernel stack. -/
theorem Building.stack {a : Word} (h : Building g c F F' src dest s g.low s')
    (hmade : Made g c F' F'' dest (tbIdx a) t s' s'') {u : Kernel}
    (hw : Work g c {⟨t, tbOffset a⟩} s'' u) (hi : ¬ g.Shared (tbIdx a)) (hu : ¬ g.User (tbIdx a)) :
    Building g c F F'' src dest s g.low u := by
  have hvalid := h.grown.valid
  have hfresh : ∀ p ∈ ({⟨t, tbOffset a⟩} : Set Slot), p.table ∉ g.kernel ∧ p.table ∉ s'.tables := by
    rintro p rfl
    exact ⟨hvalid.notMem_kernel hmade.fresh, hmade.fresh⟩
  have hg := hmade.grown.work hw hfresh
  have hdir : u.dir = s''.dir := hw.dir_eq
  have hdest : u.dir dest = (s'.dir dest).withTable (tbIdx a) t (s''.page (g.slot t)).addr := by
    rw [hdir, hmade.dir, Kernel.dir_setDir_self]
  have htable : ∀ i, i ≠ tbIdx a → (u.dir dest).tables i = (s'.dir dest).tables i := fun i hne => by
    rw [hdest]
    exact if_neg hne
  refine h.extend hg (hw.dirs_eq.trans hmade.dirs) (fun d hd => ?_) (fun i hin => htable i ?_)
    (by rw [hdest]; rfl) ?_ (fun _ hold => ?_) (fun i _ h₁ h₂ => absurd h₁ (Nat.not_le.mpr h₂))
    (fun i hi' hle => ?_)
  · rw [hdir, hmade.dir, Kernel.dir_setDir_of_ne _ _ hd]
  · rintro rfl
    exact hin.elim hi fun hlt => hi (.inl hlt)
  · exact (hmade.owned hvalid h.owned).congr (hw.tables_eq ▸ fun _ h => h) fun d _ i _ => by
      rw [hdir]
  · -- the frame that was sampled is still that of the table
    have hl := hmade.grown.valid.linked
    have hres := hmade.resident
    have hk := (hl.lookup_heap hl.current hres.heap).2
    have hkeep := (hw.steps.kept (hl.editable_heap hres.heap hres.scratch) (p := g.slot t)
      fun e => (hfresh _ e).1 hk).of_kernel hk
    rw [hdest]
    refine hold.set hmade.ne_null rfl ⟨by rw [hkeep], hres.held, .inl ⟨hres.heap,
      fun hs => hres.scratch ((hw.scratchPage_iff t).mp hs), by rw [Opened, hkeep]; exact hres.opened⟩⟩
  · rw [htable i fun e => hu (e ▸ hi')]
    exact h.todo i hi' hle

theorem stackIdx : tbIdx (kernelStackPos - kernelStackSize) = 1023 := by decide

theorem Linked.stack_own (h : Linked g s) : ¬ g.Shared 1023 ∧ ¬ g.User 1023 := by
  have hlow := h.lowLe
  rw [heapBeginIdx_eq] at hlow
  rw [Layout.Shared, Layout.User, heapBeginIdx_eq, heapEndIdx_eq,
    show (1023 : BitVec 10).toNat = 1023 from rfl]
  omega

/-- The loop over the one page of the kernel stack. -/
theorem Building.stack_ends (h : Building g c F F' src dest s g.low s') (hs : Running g c F s)
    (hnull : (s'.dir dest).tables 1023 = null) :
    Ends (forPages (copyStack dest) kernelStackPos loopBound (kernelStackPos - kernelStackSize)) s'
      (fun _ s'' => ∃ F'', Building g c F F'' src dest s g.low s'') (fun e _ => e.Exhausted) := by
  obtain ⟨hshared, huser⟩ := hs.linked.stack_own
  let I : Word → Kernel → Prop := fun a u =>
    (a = kernelStackPos - kernelStackSize ∧ u = s') ∨
      (a = kernelStackPos ∧ ∃ F'', Building g c F F'' src dest s g.low u)
  have hloop : Ends (forPages (copyStack dest) kernelStackPos loopBound
      (kernelStackPos - kernelStackSize)) s' (fun _ u => ∃ a, kernelStackPos ≤ a ∧ I a u)
      (fun e _ => e.Exhausted) := by
    refine forPages_ends I (by decide) (fun a u _ hlt hI => ?_) loopBound
      (kernelStackPos - kernelStackSize) s' (by decide) (.inl ⟨rfl, rfl⟩) (by decide)
    obtain ⟨rfl, rfl⟩ | ⟨rfl, -⟩ := hI
    · rw [← stackIdx] at hshared huser hnull
      refine (copyStack_ends (h.grown.running hs) hshared hnull (by decide)).mono ?_
        (fun _ _ h => h)
      rintro - u' ⟨F'', t, u, hmade, hwork⟩
      exact .inr ⟨by decide, F'', h.stack hmade hwork hshared huser⟩
    · exact absurd hlt (by decide)
  refine hloop.mono ?_ (fun _ _ h => h)
  rintro - u ⟨a, hle, ⟨rfl, -⟩ | ⟨-, hbuild⟩⟩
  · exact absurd hle (by decide)
  · exact hbuild

theorem Resident.ne_null (h : Resident g s t) : t ≠ null := by
  rintro rfl
  exact absurd h.heap.1 (by decide)

/-- The directory has the clone of a table of the user range. -/
theorem Building.next {n : Nat} {s₁ : Kernel} (h : Building g c F F' src dest s n s')
    (hs : Running g c F s) (hsrc : src ∈ s.dirs) (huser : g.User i) (hi : i.toNat = n)
    (hnull : (s.dir src).tables i ≠ null)
    (hcl : TableCloned g c F' F'' ((s.dir src).tables i) t s' s₁) :
    Building g c F F'' src dest s (n + 1)
      ((s₁.setDir dest (·.setTable i t)).setDir dest (·.setEntry i
        { (s.dir src).entries i with addr := (s₁.page (g.slot t)).addr })) := by
  have hvalid := h.grown.valid
  have hdest : dest ∉ s₁.dirs := by
    rw [hcl.dirs, h.dirs]
    exact hs.notMem_dirs fun k hk => (h.space k hk).1
  have hres := hcl.resident
  obtain ⟨hmem, hk⟩ := hs.linked.owned.own src hsrc i huser.not_shared hnull
  have hl₂ := hcl.grown.valid.linked.setDir_of_notMem hdest (·.setTable i t)
  have hl₃ := hl₂.setDir_of_notMem (m := (·.setEntry i { (s.dir src).entries i with
    addr := (s₁.page (g.slot t)).addr })) hdest
  have hg := (hcl.grown.setDir hl₂).setDir hl₃
  set s₃ := (s₁.setDir dest (·.setTable i t)).setDir dest (·.setEntry i
    { (s.dir src).entries i with addr := (s₁.page (g.slot t)).addr }) with hs₃
  have hdir₃ : s₃.dir dest = ((s'.dir dest).setTable i t).setEntry i
      { (s.dir src).entries i with addr := (s₁.page (g.slot t)).addr } := by
    rw [hs₃, Kernel.dir_setDir_self, Kernel.dir_setDir_self, hcl.dir]
  have htables : ∀ j, j ≠ i → (s₃.dir dest).tables j = (s'.dir dest).tables j := fun j hj => by
    rw [hdir₃]
    exact if_neg hj
  have hothers₃ : ∀ d, d ≠ dest → s₃.dir d = s'.dir d := fun d hd => by
    rw [hs₃, Kernel.dir_setDir_of_ne _ _ hd, Kernel.dir_setDir_of_ne _ _ hd, hcl.dir]
  refine h.extend hg hcl.dirs hothers₃ (fun j hj => htables j ?_) (by rw [hdir₃]; rfl) ?_
    (fun hag hold => ?_) (fun j hj h₁ h₂ => ?_) (fun j hj hle => ?_)
  · rintro rfl
    exact hj.elim huser.not_shared fun hlt => absurd hlt (by omega)
  · have hown₁ : OwnTables g s₁ (dest :: s.dirs) :=
      h.owned.congr hcl.grown.tables fun d _ j _ => by rw [hcl.dir]
    have hlink := hown₁.setTable (d := dest) (i := i) (hcl.tables ▸ List.mem_cons_self)
      (hvalid.notMem_kernel hcl.fresh) fun d hd j hj => by
        rw [hcl.dir]
        exact h.owned.ne_of_notMem hcl.fresh hres.ne_null hd hj
    refine hlink.congr (fun _ h => h) fun d _ j _ => ?_
    rw [hs₃]
    apply congrFun
    apply tables_setDir
    exact fun _ => rfl
  · rw [hdir₃]
    exact hold.set hres.ne_null ((hag.present i).mpr hnull)
      ⟨rfl, hres.held, .inl ⟨hres.heap, hres.scratch, hres.opened⟩⟩
  · obtain rfl : j = i := BitVec.eq_of_toNat_eq (by omega)
    have htable : (s₃.dir dest).tables j = t := by
      rw [hdir₃]
      exact if_pos rfl
    rw [htable]
    refine .inr ⟨hnull, hres.ne_null, fun o => ?_⟩
    have hfirst := (h.grown.steps.kept (p := ⟨_, o⟩) (hs.linked.editable_user hmem hk)
      fun hf => hf.elim hk fun hnot => hnot hmem).weaker
    exact hfirst.trans (hcl.weaker o)
  · rw [htables j fun e => absurd (e ▸ hi) (by omega)]
    exact h.todo j hj (by omega)

/-- The next table of the user range. -/
theorem Building.cloneUserTable_ends {n : Nat} (h : Building g c F F' src dest s n s')
    (hs : Running g c F s) (hsrc : src ∈ s.dirs) (hlow : g.low ≤ n) (hn : n < heapBeginIdx) :
    Ends (cloneUserTable dest src (BitVec.ofNat 10 n)) s'
      (fun _ s'' => ∃ F'', Building g c F F'' src dest s (n + 1) s'') (fun e _ => e.Exhausted) := by
  have hi : (BitVec.ofNat 10 n).toNat = n := by
    rw [BitVec.toNat_ofNat]
    rw [heapBeginIdx_eq] at hn
    exact Nat.mod_eq_of_lt (by omega)
  generalize BitVec.ofNat 10 n = i at hi ⊢
  have huser : g.User i := ⟨by omega, by omega⟩
  have hdest : dest ∉ s.dirs := hs.notMem_dirs fun k hk => (h.space k hk).1
  have hne : src ≠ dest := fun e => hdest (e ▸ hsrc)
  have hother : s'.dir src = s.dir src := h.others src hne
  rw [cloneUserTable, Ends.bind_read, hother]
  split
  · next hnull =>
      refine ⟨F', h.extend (.refl h.grown.valid) rfl (fun _ _ => rfl) (fun _ _ => rfl) rfl h.owned
        (fun _ h => h) (fun j hj h₁ h₂ => ?_) (fun j hj hle => h.todo j hj (by omega))⟩
      obtain rfl : j = i := BitVec.eq_of_toNat_eq (by omega)
      exact .inl ⟨hnull, h.todo j hj h₁⟩
  · next hnull =>
      obtain ⟨hmem, hk⟩ := hs.linked.owned.own src hsrc i huser.not_shared hnull
      refine Ends.bind (cloneTable_ends (h.grown.running hs) (h.grown.tables hmem) hk) ?_
      rintro t s₁ ⟨F'', hcl⟩
      have hnext := h.next hs hsrc huser hi hnull hcl
      have hdest₁ : dest ∉ s₁.dirs := by
        rw [hcl.dirs, h.dirs]
        exact hdest
      have hl₂ := hcl.grown.valid.linked.setDir_of_notMem hdest₁ (·.setTable i t)
      have hres := hcl.resident
      refine (Ends.bind_of_ok (modify_apply _ _)).mpr ?_
      rw [Ends.bind_read]
      refine (Ends.bind_of_ok (getPhysicalAddr_of_resident hl₂
        ⟨hres.heap, hres.scratch, hres.opened, hres.held⟩)).mpr ?_
      rw [shift_frameAddr_or, Ends.bind_read, Kernel.dir_setDir_of_ne _ _ hne, hcl.dir, hother]
      exact .of_ok (modify_apply _ _) ⟨F'', hnext⟩

/-- A clone of the directory `src` has come into existence at `dest`. -/
structure Cloned (g : Layout) (c : Prop) (F F' : Multiset Block) (src dest : Word)
    (s s' : Kernel) : Prop where
  grown : Grown g c F F' s s'
  fresh : dest ∉ s.dirs
  dirs : s'.dirs = dest :: s.dirs
  others : ∀ d, d ≠ dest → s'.dir d = s.dir d
  phyaddr : (s'.dir dest).phyaddr =
    frameAddr (s'.page (g.slot (dest + 4096))).addr ||| ((dest + 4096) &&& 0xFFF)
  resident : Resident g s' (dest + 4096)
  agrees : Agrees g s (s.dir src) → Agrees g s' (s'.dir dest)
  clones : ∀ i, g.User i → CloneOf s s' ((s.dir src).tables i) ((s'.dir dest).tables i)

theorem Building.finish (h : Building g c F F' src dest s heapBeginIdx s') (hs : Valid g c F s) :
    Cloned g c F F' src dest s { s' with dirs := dest :: s'.dirs } := by
  have hg := h.grown
  have hl := hg.valid.linked
  have hlink : Linked g { s' with dirs := dest :: s'.dirs } := by
    refine ⟨hl.finished, hl.heapReady, hl.code, hl.low, hl.lowLe, List.mem_cons_of_mem _ hl.current,
      hl.kernel, hl.inj, fun d hd i hi => ?_, ?_, hl.identity, hl.scratch0, hl.scratch1⟩
    · obtain rfl | hd := List.mem_cons.mp hd
      · exact h.shared i hi
      · exact hl.shared d hd i hi
    · have := h.owned
      rw [← h.dirs] at this
      exact ⟨this.own, this.unique⟩
  have hstep : Step g c ∅ s' { s' with dirs := dest :: s'.dirs } := .other rfl rfl rfl rfl rfl rfl rfl
  have hheap := hg.valid.heap
  have hvalid : Valid g c F' { s' with dirs := dest :: s'.dirs } := by
    refine ⟨hstep.sound hg.valid.sound, hlink, ⟨⟨hheap.tables, fun d hd k hk => ?_, hheap.scratch⟩,
      hheap.frees, hheap.proper, hheap.once⟩⟩
    obtain rfl | hd := List.mem_cons.mp hd
    · exact (h.space k hk).2
    · exact hheap.dirs d hd k hk
  refine ⟨⟨hvalid, hg.env.trans ⟨rfl, rfl, rfl, rfl, rfl, rfl, rfl, rfl⟩, hg.tables, hg.newTables,
    fun d hd => ?_, hg.steps.tail (hstep.mono (Set.empty_subset _)), hg.took, hg.separate, hg.opened,
    hg.fixed, hg.cells⟩, hs.notMem_dirs fun k hk => (h.space k hk).1, ?_, h.others, h.phyaddr, ?_,
    fun hag => ?_, fun i hi => ?_⟩
  · obtain rfl | hd := List.mem_cons.mp hd
    · exact .inr fun k hk => (h.space k hk).1
    · exact hg.newDirs d hd
  · exact congrArg (dest :: ·) h.dirs
  · exact ⟨h.resident.heap, h.resident.scratch, h.resident.opened, h.resident.held⟩
  · exact (h.agrees hag).mono fun _ _ _ hb => ⟨hb.addr, hb.held, hb.place⟩
  · exact h.clones i hi hi.2

theorem cloneDirectory_ends (h : Running g c F s) (hsrc : src ∈ s.dirs) :
    Ends (cloneDirectory src) s (fun dest s' => ∃ F', Cloned g c F F' src dest s s')
      (fun e _ => e.Exhausted) := by
  refine Ends.bind (kmalloc_ends h.toValid (by decide) (by decide)) ?_
  rintro dest s₁ ⟨F₁, got, hm⟩
  have hspace : ∀ k < sizeofDirectory.toNat,
      0 < depthOf F (dest.toNat + k) ∧ depthOf F₁ (dest.toNat + k) = 0 := fun k hk =>
    hm.payload_free h.toValid (Nat.le_add_right _ _) (Nat.add_lt_add_left hk _)
  have hdest : dest ∉ s.dirs := h.notMem_dirs fun k hk => (hspace k hk).1
  have hne : src ≠ dest := fun e => hdest (e ▸ hsrc)
  refine (Ends.bind_of_ok (modify_apply _ _)).mpr (Ends.bind (newDirectory_ends hm h.toValid) ?_)
  rintro - s₂ ⟨hg₂, hdirs₂, hdir₂, hres₂⟩
  have hl₂ := hg₂.valid.linked
  rw [Ends.bind_read]
  refine (Ends.bind_of_ok (getPhysicalAddr_of_resident hl₂ hres₂)).mpr ?_
  set w := frameAddr (s₂.page (g.slot (dest + 4096))).addr ||| ((dest + 4096) &&& 0xFFF) with hw
  have hsrc₂ : s₂.dir src = s.dir src := by
    rw [hdir₂, Kernel.dir_setDir_of_ne _ _ hne]
  have hlow : (s₂.setDir dest ({ · with phyaddr := w })).kernelLowNtable = g.low := hl₂.low
  have hle : g.low ≤ 959 := hl₂.lowLe
  refine (Ends.bind_of_ok (modify_apply _ _)).mpr ?_
  rw [Ends.bind_read, hlow]
  refine Ends.bind (linkTables_ends hne (by omega)) ?_
  rintro - s₃ hs₃
  refine Ends.bind (linkTables_ends hne (by decide)) ?_
  rintro - s₄ hs₄
  have hdest₂ : dest ∉ s₂.dirs := hdirs₂ ▸ hdest
  obtain rfl : s₄ = s₂.setDir dest (fun x => (({ x with phyaddr := w } : Directory).link
      (s.dir src) 0 g.low).link (s.dir src) heapBeginIdx heapEndIdx) := by
    rw [hs₄, hs₃]
    simp only [Kernel.setDir_setDir, Kernel.dir_setDir_of_ne _ _ hne, hsrc₂, Nat.zero_add]
    rfl
  have hg₄ := hg₂.setDir (hl₂.setDir_of_notMem hdest₂ fun x =>
    (({ x with phyaddr := w } : Directory).link (s.dir src) 0 g.low).link (s.dir src) heapBeginIdx
      heapEndIdx)
  obtain ⟨hbuild, hstack⟩ := building_of_shell (w := w) h.toValid hsrc hg₄ hspace hdirs₂ (by
    funext d
    rcases eq_or_ne d dest with rfl | hd
    · rw [Kernel.dir_setDir_self, Kernel.dir_setDir_self, hdir₂, Kernel.dir_setDir_self]
      rfl
    · rw [Kernel.dir_setDir_of_ne _ _ hd, Kernel.dir_setDir_of_ne _ _ hd, hdir₂,
        Kernel.dir_setDir_of_ne _ _ hd]) hw
    ⟨hres₂.heap, hres₂.scratch, hres₂.opened, hres₂.held⟩
  refine Ends.bind (hbuild.stack_ends h hstack) ?_
  rintro - s₅ ⟨F₅, hbuild₅⟩
  refine Ends.bind (forIdx_ends (fun n s' => ∃ F', Building g c F F' src dest s n s')
    (fun n s' hlo hn ⟨F', hb⟩ => hb.cloneUserTable_ends h hsrc hlo ?_) ⟨F₅, hbuild₅⟩) ?_
  · rw [heapBeginIdx_eq] at hn ⊢
    omega
  · rintro - s₆ ⟨F₆, hbuild₆⟩
    rw [Nat.add_sub_cancel' hl₂.lowLe] at hbuild₆
    exact .of_ok rfl ⟨F₆, hbuild₆.finish h.toValid⟩

end Jkos.Page
