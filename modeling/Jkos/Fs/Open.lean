import Jkos.Fs.Ramdisk

/-!
# Several open files

`ramdisk_get_file_node` may be called any number of times, also for one and the same module of
the boot loader. All nodes work on the memory of the kernel. Seen from outside, the nodes of one
module are handles of one file, each with a cursor of its own, and different files have nothing
to do with each other.
-/

namespace Jkos.Fs

/-- Where the boot loader has put a module. -/
structure Module where
  start : Word
  stop : Word
  le : start.toNat ≤ stop.toNat
  small : stop.toNat - start.toNat < 2 ^ 31

/-- The number of bytes. -/
def Module.size (m : Module) : Nat := m.stop.toNat - m.start.toNat

/-- An address of the module. -/
def Module.Holds (m : Module) (a : Word) : Prop := m.start.toNat ≤ a.toNat ∧ a.toNat < m.stop.toNat

/-- What a program does with files. -/
inductive DiskOp where
  /-- `ramdisk_get_file_node`. -/
  | openFile (m : Nat)
  /-- A call on the node that was opened as number `i`. -/
  | call (i : Nat) (op : FileOp)

/-- The memory, `errno` and the nodes. Each call finds the present memory and `errno` in its
node. -/
structure Disk where
  memory : Word → Byte
  errno : Word
  nodes : List RamdiskFileNode

namespace Disk

/-- A node with the present memory. -/
def attach (d : Disk) (node : RamdiskFileNode) : RamdiskFileNode :=
  { node with memory := d.memory, errno := d.errno }

def exec (modules : List Module) (d : Disk) : DiskOp → Option Reply × Disk
  | .openFile m =>
      match modules[m]? with
      | some x =>
          (none, { d with
            nodes := d.nodes ++ [ramdiskGetFileNode d.memory d.errno x.start x.stop] })
      | none => (none, d)
  | .call i op =>
      match d.nodes[i]? with
      | some node =>
          let r := (d.attach node).exec op
          (some r.1, ⟨r.2.memory, r.2.errno, d.nodes.set i r.2⟩)
      | none => (none, d)

def run (modules : List Module) (d : Disk) : List DiskOp → List (Option Reply) × Disk
  | [] => ([], d)
  | op :: ops =>
      ((d.exec modules op).1 :: ((d.exec modules op).2.run modules ops).1,
        ((d.exec modules op).2.run modules ops).2)

end Disk

/-! ## Files and handles -/

/-- A handle of a file. -/
structure Handle where
  file : Nat
  cursor : Nat
  closed : Bool

/-- The files with their handles. -/
structure Files where
  contents : Nat → List Byte
  handles : List Handle
  cursor_le : ∀ h ∈ handles, h.cursor ≤ (contents h.file).length

theorem ByteFile.length_exec (f : ByteFile) (op : FileOp) :
    (f.exec op).2.contents.length = f.contents.length := by
  cases op with
  | seek offset whence =>
      simp only [ByteFile.exec, ByteFile.seek]
      split
      · split <;> rfl
      · rfl
  | read cnt =>
      simp only [ByteFile.exec, ByteFile.read]
      split <;> rfl
  | write buf cnt =>
      simp only [ByteFile.exec, ByteFile.write]
      split
      · rfl
      · apply length_overwrite
        rw [List.length_map, List.length_range]
        exact f.amount_le _
  | close => rfl

namespace Files

/-- A handle as a file of its own. -/
def file (fs : Files) (h : Handle) (hmem : h ∈ fs.handles) : ByteFile :=
  ⟨fs.contents h.file, h.cursor, h.closed, fs.cursor_le h hmem⟩

theorem length_exec_file (fs : Files) (h : Handle) (hmem : h ∈ fs.handles) (op : FileOp) :
    ((fs.file h hmem).exec op).2.contents.length = (fs.contents h.file).length :=
  ByteFile.length_exec _ op

/-- The files after a call on one handle. -/
def put (fs : Files) (i : Nat) (h : Handle) (f : ByteFile)
    (hlen : f.contents.length = (fs.contents h.file).length) : Files where
  contents := Function.update fs.contents h.file f.contents
  handles := fs.handles.set i ⟨h.file, f.cursor, f.closed⟩
  cursor_le := by
    intro h' hh'
    obtain hmem | rfl := List.mem_or_eq_of_mem_set hh'
    · have hle := fs.cursor_le h' hmem
      by_cases heq : h'.file = h.file
      · rw [heq] at hle
        rw [heq, Function.update_self, hlen]
        exact hle
      · rw [Function.update_of_ne heq]
        exact hle
    · rw [Function.update_self]
      exact f.cursor_le

section

variable (fs : Files) (i : Nat) (h : Handle) (f : ByteFile)
  (hlen : f.contents.length = (fs.contents h.file).length)

@[simp] theorem put_contents :
    (fs.put i h f hlen).contents = Function.update fs.contents h.file f.contents := rfl

@[simp] theorem put_handles :
    (fs.put i h f hlen).handles = fs.handles.set i ⟨h.file, f.cursor, f.closed⟩ := rfl

end

def exec (count : Nat) (fs : Files) : DiskOp → Option Reply × Files
  | .openFile m =>
      if m < count then
        (none, { fs with
          handles := fs.handles ++ [⟨m, 0, false⟩]
          cursor_le := by
            intro h hh
            obtain hmem | hnew := List.mem_append.mp hh
            · exact fs.cursor_le h hmem
            · rw [List.mem_singleton.mp hnew]
              exact Nat.zero_le _ })
      else (none, fs)
  | .call i op =>
      match hi : fs.handles[i]? with
      | some h =>
          have hmem : h ∈ fs.handles := List.mem_of_getElem? hi
          let r := (fs.file h hmem).exec op
          (some r.1, fs.put i h r.2 (fs.length_exec_file h hmem op))
      | none => (none, fs)

def run (count : Nat) (fs : Files) : List DiskOp → List (Option Reply) × Files
  | [] => ([], fs)
  | op :: ops =>
      ((fs.exec count op).1 :: ((fs.exec count op).2.run count ops).1,
        ((fs.exec count op).2.run count ops).2)

end Files

/-! ## Simulation -/

/-- No two modules share an address. -/
def Apart (modules : List Module) : Prop :=
  ∀ (i j : Nat) (x y : Module), modules[i]? = some x → modules[j]? = some y → i ≠ j →
    ∀ a, ¬ (x.Holds a ∧ y.Holds a)

/-- A node that was opened for a file, as its handle. -/
structure NodeOf (modules : List Module) (node : RamdiskFileNode) (h : Handle) (x : Module) :
    Prop where
  file : modules[h.file]? = some x
  start : node.start = x.start
  stop : node.stop = x.stop
  curOffset : node.curOffset = BitVec.ofNat 64 h.cursor
  closed : node.closed = h.closed

/-- The nodes stand for handles of the files that the modules hold. -/
structure Disk.Represents (modules : List Module) (d : Disk) (fs : Files) : Prop where
  contents : ∀ (m : Nat) (x : Module), modules[m]? = some x →
    fs.contents m = load d.memory x.start x.size
  length : d.nodes.length = fs.handles.length
  nodes : ∀ (i : Nat) (node : RamdiskFileNode) (h : Handle), d.nodes[i]? = some node →
    fs.handles[i]? = some h → ∃ x, NodeOf modules node h x

variable {modules : List Module} {d : Disk} {fs : Files}

theorem Module.toNat_size (x : Module) : (x.stop - x.start).toNat = x.size := by
  have hle := x.le
  rw [Module.size]
  bv_omega

/-- The contents of a module depend on its own addresses only. -/
theorem Module.load_congr (x : Module) {memory memory' : Word → Byte}
    (h : ∀ a, x.Holds a → memory' a = memory a) :
    load memory' x.start x.size = load memory x.start x.size := by
  have hlt := x.stop.isLt
  rw [load, load, List.map_inj_left]
  intro k hk
  rw [List.mem_range, Module.size] at hk
  apply h
  constructor
  · bv_omega
  · bv_omega

theorem Files.exec_call_of_none {count i : Nat} {op : FileOp} (hi : fs.handles[i]? = none) :
    fs.exec count (.call i op) = (none, fs) := by
  simp only [Files.exec]
  split
  · next heq =>
      rw [hi] at heq
      cases heq
  · rfl

theorem Files.exec_call_of_some {count i : Nat} {op : FileOp} {hd : Handle}
    (hi : fs.handles[i]? = some hd) :
    fs.exec count (.call i op) =
      (some ((fs.file hd (List.mem_of_getElem? hi)).exec op).1,
        fs.put i hd ((fs.file hd (List.mem_of_getElem? hi)).exec op).2
          (fs.length_exec_file hd (List.mem_of_getElem? hi) op)) := by
  simp only [Files.exec]
  split
  · next hd' heq =>
      obtain rfl : hd' = hd := Option.some.inj (heq.symm.trans hi)
      rfl
  · next heq =>
      rw [hi] at heq
      cases heq

namespace Disk.Represents

variable (h : Disk.Represents modules d fs)
include h

/-- One node, with the file that its handle belongs to. -/
theorem attach {node : RamdiskFileNode} {hd : Handle} {x : Module}
    (hmem : hd ∈ fs.handles) (hnode : NodeOf modules node hd x) :
    (d.attach node).Represents (fs.file hd hmem) := by
  have hsize : (d.attach node).size.toNat = x.size := by
    rw [RamdiskFileNode.size, ← x.toNat_size, ← hnode.start, ← hnode.stop]
    rfl
  refine ⟨?_, ?_, ?_, hnode.curOffset, hnode.closed⟩
  · change node.start.toNat ≤ node.stop.toNat
    rw [hnode.start, hnode.stop]
    exact x.le
  · change node.stop.toNat - node.start.toNat < 2 ^ 31
    rw [hnode.start, hnode.stop]
    exact x.small
  · rw [hsize]
    change fs.contents hd.file = load d.memory node.start x.size
    rw [hnode.start]
    exact h.contents hd.file x hnode.file

theorem openFile (m : Nat) :
    (d.exec modules (.openFile m)).1 = (fs.exec modules.length (.openFile m)).1 ∧
    Disk.Represents modules (d.exec modules (.openFile m)).2
      (fs.exec modules.length (.openFile m)).2 ∧
    (d.exec modules (.openFile m)).2.memory = d.memory := by
  cases hm : modules[m]? with
  | none =>
      have hlt : ¬ m < modules.length := Nat.not_lt.mpr (List.getElem?_eq_none_iff.mp hm)
      simp only [Disk.exec, hm, Files.exec, hlt, if_false]
      exact ⟨trivial, h, trivial⟩
  | some x =>
      have hlt : m < modules.length := (List.getElem?_eq_some_iff.mp hm).1
      simp only [Disk.exec, hm, Files.exec, hlt, if_true]
      refine ⟨trivial, ⟨h.contents, ?_, ?_⟩, trivial⟩
      · simp [h.length]
      · intro i node hd hnode hhandle
        rw [List.getElem?_append] at hnode hhandle
        rw [h.length] at hnode
        split at hnode
        · next hi =>
            rw [if_pos hi] at hhandle
            exact h.nodes i node hd hnode hhandle
        · next hi =>
            rw [if_neg hi, List.getElem?_singleton] at hhandle
            rw [List.getElem?_singleton] at hnode
            split at hnode
            · next hzero =>
                rw [if_pos hzero] at hhandle
                obtain rfl := Option.some.inj hnode
                obtain rfl := Option.some.inj hhandle
                exact ⟨x, hm, rfl, rfl, rfl, rfl⟩
            · cases hnode

/-- A call on one node. -/
theorem call (apart : Apart modules) (i : Nat) (op : FileOp) :
    (d.exec modules (.call i op)).1 = (fs.exec modules.length (.call i op)).1 ∧
    Disk.Represents modules (d.exec modules (.call i op)).2
      (fs.exec modules.length (.call i op)).2 ∧
    ∀ a, (∀ x ∈ modules, ¬ x.Holds a) → (d.exec modules (.call i op)).2.memory a = d.memory a := by
  cases hi : d.nodes[i]? with
  | none =>
      have hhandle : fs.handles[i]? = none := by
        rw [List.getElem?_eq_none_iff, ← h.length]
        exact List.getElem?_eq_none_iff.mp hi
      rw [Files.exec_call_of_none hhandle]
      simp only [Disk.exec, hi]
      exact ⟨trivial, h, fun _ _ => trivial⟩
  | some node =>
      obtain ⟨hd, hhandle⟩ : ∃ hd, fs.handles[i]? = some hd := by
        have hlt := (List.getElem?_eq_some_iff.mp hi).1
        rw [h.length] at hlt
        exact ⟨_, List.getElem?_eq_getElem hlt⟩
      have hmem := List.mem_of_getElem? hhandle
      obtain ⟨x, hnode⟩ := h.nodes i node hd hi hhandle
      have hsim := (h.attach hmem hnode).exec op
      rw [Files.exec_call_of_some hhandle]
      simp only [Disk.exec, hi]
      have hout : ∀ a, ¬ x.Holds a → ((d.attach node).exec op).2.memory a = d.memory a := by
        intro a ha
        apply hsim.outside
        change a.toNat < node.start.toNat ∨ node.stop.toNat ≤ a.toNat
        rw [hnode.start, hnode.stop]
        rw [Module.Holds, not_and_or] at ha
        omega
      have hstart : ((d.attach node).exec op).2.start = x.start := hsim.start.trans hnode.start
      have hstop : ((d.attach node).exec op).2.stop = x.stop := hsim.stop.trans hnode.stop
      refine ⟨by rw [hsim.reply], ⟨?_, ?_, ?_⟩, fun a ha => ?_⟩
      · intro m y hy
        by_cases hm : m = hd.file
        · subst hm
          obtain rfl : x = y := Option.some.inj (hnode.file.symm.trans hy)
          rw [Files.put_contents, Function.update_self, hsim.represents.contents, hstart]
          congr 1
          rw [RamdiskFileNode.size, hstart, hstop, x.toNat_size]
        · rw [Files.put_contents, Function.update_of_ne hm, h.contents m y hy]
          symm
          apply y.load_congr
          intro a ha
          apply hout
          intro hx
          exact apart _ _ y x hy hnode.file hm a ⟨ha, hx⟩
      · simp only [Files.put_handles, List.length_set]
        exact h.length
      · intro j node' hd' hnode' hhandle'
        rw [List.getElem?_set] at hnode'
        rw [Files.put_handles, List.getElem?_set] at hhandle'
        split at hnode'
        · next hij =>
            rw [if_pos hij] at hhandle'
            split at hnode'
            · next hlt =>
                rw [h.length] at hlt
                rw [if_pos hlt] at hhandle'
                obtain rfl := Option.some.inj hnode'
                obtain rfl := Option.some.inj hhandle'
                exact ⟨x, hnode.file, hstart, hstop, hsim.represents.curOffset,
                  hsim.represents.closed⟩
            · cases hnode'
        · next hij =>
            rw [if_neg hij] at hhandle'
            exact h.nodes j node' hd' hnode' hhandle'
      · apply hout
        exact ha x (List.mem_of_getElem? hnode.file)

end Disk.Represents

/-- What a sequence of operations does, as seen from the files. -/
structure Disk.RunsAs (modules : List Module) (d : Disk) (fs : Files) (ops : List DiskOp) :
    Prop where
  replies : (d.run modules ops).1 = (fs.run modules.length ops).1
  represents : Disk.Represents modules (d.run modules ops).2 (fs.run modules.length ops).2
  outside : ∀ a, (∀ x ∈ modules, ¬ x.Holds a) → (d.run modules ops).2.memory a = d.memory a

theorem Disk.Represents.run (h : Disk.Represents modules d fs) (apart : Apart modules)
    (ops : List DiskOp) : Disk.RunsAs modules d fs ops := by
  induction ops generalizing d fs with
  | nil => exact ⟨rfl, h, fun _ _ => rfl⟩
  | cons op ops ih =>
      have hstep : (d.exec modules op).1 = (fs.exec modules.length op).1 ∧
          Disk.Represents modules (d.exec modules op).2 (fs.exec modules.length op).2 ∧
          ∀ a, (∀ x ∈ modules, ¬ x.Holds a) → (d.exec modules op).2.memory a = d.memory a := by
        cases op with
        | openFile m =>
            obtain ⟨hreply, hnext, hmem⟩ := h.openFile m
            exact ⟨hreply, hnext, fun a _ => congrFun hmem a⟩
        | call i op => exact h.call apart i op
      obtain ⟨hreply, hnext, hmem⟩ := hstep
      have hrest := ih hnext
      refine ⟨?_, hrest.represents, fun a ha => ?_⟩
      · rw [Disk.run, Files.run, hreply, hrest.replies]
      · exact (hrest.outside a ha).trans (hmem a ha)

/-- The files that the modules hold, none of them open. -/
def Files.ofModules (modules : List Module) (memory : Word → Byte) : Files where
  contents := fun m =>
    match modules[m]? with
    | some x => load memory x.start x.size
    | none => []
  handles := []
  cursor_le := fun _ h => absurd h List.not_mem_nil

/-- Any number of open nodes over the modules of the boot loader, used in any order, are handles
of files: nodes of one module share its contents and nothing else, and nodes of different
modules share nothing. -/
theorem openFiles_run {modules : List Module} (apart : Apart modules) (memory : Word → Byte)
    (errno : Word) (ops : List DiskOp) :
    Disk.RunsAs modules ⟨memory, errno, []⟩ (.ofModules modules memory) ops := by
  apply Disk.Represents.run _ apart
  refine ⟨?_, rfl, ?_⟩
  · intro m x hx
    simp only [Files.ofModules, hx]
  · intro i node h hnode
    cases hnode

/-- Two modules side by side. -/
def twoModules : List Module :=
  [⟨0x100000, 0x100004, by decide, by decide⟩, ⟨0x100004, 0x100006, by decide, by decide⟩]

theorem twoModules_apart : Apart twoModules := by
  intro i j x y hx hy hij a ⟨⟨hxlow, hxhigh⟩, hylow, hyhigh⟩
  match i, j with
  | 0, 0 => exact hij rfl
  | 1, 1 => exact hij rfl
  | 0, 1 =>
      obtain rfl := Option.some.inj hx
      obtain rfl := Option.some.inj hy
      exact absurd (Nat.lt_of_lt_of_le hxhigh hylow) (Nat.lt_irrefl _)
  | 1, 0 =>
      obtain rfl := Option.some.inj hx
      obtain rfl := Option.some.inj hy
      exact absurd (Nat.lt_of_lt_of_le hyhigh hxlow) (Nat.lt_irrefl _)
  | i + 2, _ => cases hx
  | 0, j + 2 => cases hy
  | 1, j + 2 => cases hy

/-- The first file is open twice. What is written through one node is read through the other,
and the second file is as it was. -/
theorem openFiles_run_shared :
    ((⟨fun _ => 9, 0, []⟩ : Disk).run twoModules
      [.openFile 0, .openFile 0, .openFile 1, .call 0 (.write (fun k => BitVec.ofNat 8 k) 100),
        .call 1 (.read 3), .call 2 (.read 5), .call 0 .close, .call 1 (.read 7),
        .call 3 (.read 1)]).1 =
      [none, none, none, some (.transferred 4 []), some (.transferred 3 [0, 1, 2]),
        some (.transferred 2 [9, 9]), some .closed, some (.transferred 1 [3]), none] :=
  (openFiles_run twoModules_apart _ _ _).replies.trans (by decide)

end Jkos.Fs
