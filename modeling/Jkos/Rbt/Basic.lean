import Jkos.Rbt.Node

/-!
# The operations of `Rbt<Key_t>`

The tree is a root pointer into a memory of nodes. Every function follows the
source statement by statement: pointers are compared, nodes are updated in place,
and a `Node *&` argument is a `Ref`, re-read wherever the source reads it. The
template is modelled with `RBT_SIZE`; no other field depends on `size`.

Loops return `none` when they exceed `loopBound` iterations, which for these
loops means that they do not terminate.
-/

namespace Jkos.Rbt

universe u

variable {Key : Type u}

/-- What the fix-up loops did. Ghost data: it is recorded and never read. -/
inductive Event where
  /-- `rotate` ran on the node `root` and lifted its child `pivot`. -/
  | rotate (root pivot : Word)
  /-- `remove_bottom` took `s` as the sibling of the doubly black node. -/
  | sibling (s : Word)
  deriving DecidableEq, Repr

/-- A tree object: the address of `NIL_INSTANCE`, `tree_root`, and the memory
that holds the nodes (those not in use have arbitrary contents). -/
structure State (Key : Type u) where
  nil : Word
  root : Word
  mem : Word → Node Key
  trace : List Event

/-- A `Node *&`: the root pointer or a child slot of a node. -/
inductive Ref where
  | treeRoot
  | child (n : Word) (i : Bool)
  deriving DecidableEq

namespace State

/-- Update the node at `p` in place. -/
def modify (s : State Key) (p : Word) (f : Node Key → Node Key) : State Key :=
  { s with mem := fun q => if q = p then f (s.mem p) else s.mem q }

def record (s : State Key) (e : Event) : State Key := { s with trace := e :: s.trace }

/-- Read through a reference. -/
def deref (s : State Key) : Ref → Word
  | .treeRoot => s.root
  | .child n i => (s.mem n).ch i

/-- Write through a reference. -/
def assign (s : State Key) (r : Ref) (p : Word) : State Key :=
  match r with
  | .treeRoot => { s with root := p }
  | .child n i => s.modify n (·.setCh i p)

/-- The constructor `Rbt::Rbt` on a memory with arbitrary contents. -/
def new (nil : Word) (mem : Word → Node Key) : State Key :=
  { nil := nil, root := nil, trace := []
    mem := fun q =>
      if q = nil then
        ((((mem nil).setBlack.setPar nil).setCh true nil).setCh false nil).setSize 0
      else mem q }

def getRef (s : State Key) (n : Word) : Ref :=
  if n = s.root then .treeRoot
  else .child (s.mem n).getPar ((s.mem (s.mem n).getPar).ch true == n)

/-- `dir = false` rotates left, `dir = true` rotates right. -/
def rotate (s : State Key) (root : Ref) (dir : Bool) : State Key :=
  let t := (s.mem (s.deref root)).ch (!dir)
  let s := s.record (.rotate (s.deref root) t)
  let s := s.modify t (·.copyPar (s.mem (s.deref root)))
  let s := s.modify (s.deref root) (·.setCh (!dir) ((s.mem t).ch dir))
  let s := s.modify ((s.mem (s.deref root)).ch (!dir)) (·.setPar (s.deref root))
  let s := s.modify t (·.setCh dir (s.deref root))
  let s := s.modify ((s.mem t).ch dir) (·.setPar t)
  let s := s.modify t (·.setSize (s.mem (s.deref root)).size)
  let s := s.modify (s.deref root) (·.setSize
    ((s.mem ((s.mem (s.deref root)).ch false)).size +
      (s.mem ((s.mem (s.deref root)).ch true)).size + 1))
  s.assign root t

section Insert

variable [LT Key] [DecidableLT Key]

/-- The descent of `insert`: returns the leaf's parent, sizes incremented. -/
def descend (val : Key) : Nat → State Key → Word → Word → Option (State Key × Word)
  | 0, _, _, _ => none
  | fuel + 1, s, par, cur =>
    if cur = s.nil then some (s, par)
    else
      let s := s.modify cur (fun n => n.setSize (n.size + 1))
      descend val fuel s cur ((s.mem cur).ch (decide ((s.mem cur).key < val)))

/-- The fix-up loop of `insert`. -/
def insertFix : Nat → State Key → Word → Option (State Key)
  | 0, _, _ => none
  | fuel + 1, s, cur =>
    let par := (s.mem cur).getPar
    if par ≠ s.nil ∧ (s.mem par).isRed then
      let gpar := (s.mem par).getPar
      let parDir := par == (s.mem gpar).ch false
      let uncle := (s.mem gpar).ch parDir
      if (s.mem uncle).isRed then
        let s := s.modify par Node.setBlack
        let s := s.modify uncle Node.setBlack
        let s := s.modify gpar Node.setRed
        insertFix fuel s gpar
      else
        let (s, par) :=
          if (cur == (s.mem par).ch false) ≠ parDir then
            let s := s.rotate (.child gpar (!parDir)) (!parDir)
            (s, (s.mem par).getPar)
          else (s, par)
        let s := s.modify par Node.setBlack
        let s := s.modify gpar Node.setRed
        some (s.rotate (s.getRef gpar) parDir)
    else if par = s.nil then some (s.modify cur Node.setBlack)
    else some s

/-- `insert(val)`, where `node` is the address that `node_alloc` returns. -/
def insert (s : State Key) (node : Word) (val : Key) : Option (State Key) :=
  if s.root = s.nil then
    let s := { s with root := node }
    let s := s.modify s.root Node.setBlack
    let s := s.modify s.root (·.setPar s.nil)
    let s := s.modify s.root (fun n => (n.setCh true s.nil).setCh false s.nil)
    let s := s.modify s.root (·.setKey val)
    some (s.modify s.root (·.setSize 1))
  else
    match descend val loopBound s s.nil s.root with
    | none => none
    | some (s, par) =>
      let cur := node
      let s := s.modify par (·.setCh (decide ((s.mem par).key < val)) cur)
      let s := s.modify cur Node.setRed
      let s := s.modify cur (fun n => (n.setCh true s.nil).setCh false s.nil)
      let s := s.modify cur (·.setPar par)
      let s := s.modify cur (·.setKey val)
      let s := s.modify cur (·.setSize 1)
      insertFix loopBound s cur

end Insert

/-- The first loop of `remove_bottom`: one node fewer below every ancestor. -/
def shrink : Nat → State Key → Word → Option (State Key)
  | 0, _, _ => none
  | fuel + 1, s, i =>
    if i = s.nil then some s
    else
      let s := s.modify i (fun n => n.setSize (n.size - 1))
      shrink fuel s (s.mem i).getPar

/-- The fix-up loop of `remove_bottom` at the doubly black node `n`. -/
def removeFix : Nat → State Key → Word → Option (State Key)
  | 0, _, _ => none
  | fuel + 1, s, n =>
    if n ≠ s.root ∧ (s.mem n).isBlack then
      let p := (s.mem n).getPar
      let sib := (s.mem p).ch (n == (s.mem p).ch false)
      let s := s.record (.sibling sib)
      let (s, sib) :=
        if (s.mem sib).isRed then
          let s := s.modify p Node.setRed
          let s := s.modify sib Node.setBlack
          let d := sib == (s.mem p).ch false
          let s := s.rotate (s.getRef p) d
          (s, (s.mem p).ch (!d))
        else (s, sib)
      let s := s.record (.sibling sib)
      if (s.mem ((s.mem sib).ch false)).isBlack ∧ (s.mem ((s.mem sib).ch true)).isBlack then
        removeFix fuel (s.modify sib Node.setRed) p
      else
        let dir := n == (s.mem p).ch true
        let (s, sib) :=
          if (s.mem ((s.mem sib).ch (!dir))).isBlack then
            let s := s.modify ((s.mem sib).ch dir) Node.setBlack
            let s := s.modify sib Node.setRed
            let s := s.rotate (.child p (sib == (s.mem p).ch true)) (!dir)
            (s, (s.mem p).ch (!dir))
          else (s, sib)
        let s := s.modify sib (·.copyColor (s.mem p))
        let s := s.modify p Node.setBlack
        let s := s.modify ((s.mem sib).ch (!dir)) Node.setBlack
        some (s.rotate (s.getRef p) dir)
    else some (s.modify n Node.setBlack)

/-- `remove_bottom`, with the node it passes to `node_free`. -/
def removeBottom (s : State Key) (nRef : Ref) : Option (State Key × Word) :=
  match shrink loopBound s (s.deref nRef) with
  | none => none
  | some s =>
    let n := s.deref nRef
    let c := (s.mem n).ch ((s.mem n).ch false == s.nil)
    let s := s.modify c (·.copyPar (s.mem n))
    let s := s.assign nRef c
    if (s.mem n).isRed then some (s, n)
    else if (s.mem c).isRed then some (s.modify c Node.setBlack, n)
    else (removeFix loopBound s c).map (·, n)

/-- The loop of `erase`: the leftmost node below `cur`, or `prev` if there is none. -/
def leftmost : Nat → State Key → Word → Word → Option Word
  | 0, _, _, _ => none
  | fuel + 1, s, prev, cur =>
    if cur = s.nil then some prev
    else leftmost fuel s cur ((s.mem cur).ch false)

/-- `erase(ptr)`, with the node it frees, if any. -/
def erase (s : State Key) (ptr : Word) : Option (State Key × Option Word) :=
  if ptr = s.nil ∨ ptr = null then some (s, none)
  else
    match leftmost loopBound s s.nil ((s.mem ptr).ch true) with
    | none => none
    | some prev =>
      let (s, prev) :=
        if prev ≠ s.nil then (s.modify ptr (·.setKey (s.mem prev).key), prev) else (s, ptr)
      (s.removeBottom (s.getRef prev)).map (fun r => (r.1, some r.2))

section Find

def doFindGe [LT Key] [DecidableLT Key] (val : Key) :
    Nat → State Key → Word → Word → Option Word
  | 0, _, _, _ => none
  | fuel + 1, s, cur, pos =>
    if cur = s.nil then some pos
    else if (s.mem cur).key < val then doFindGe val fuel s ((s.mem cur).ch true) pos
    else doFindGe val fuel s ((s.mem cur).ch false) cur

def doFindLe [LE Key] [DecidableLE Key] (val : Key) :
    Nat → State Key → Word → Word → Option Word
  | 0, _, _, _ => none
  | fuel + 1, s, cur, pos =>
    if cur = s.nil then some pos
    else if (s.mem cur).key ≤ val then doFindLe val fuel s ((s.mem cur).ch true) cur
    else doFindLe val fuel s ((s.mem cur).ch false) pos

/-- `find_ge`: `null` when every key is less than `val`. -/
def findGe [LT Key] [DecidableLT Key] (s : State Key) (val : Key) : Option Word :=
  (doFindGe val loopBound s s.root s.nil).map (fun pos => if pos = s.nil then null else pos)

/-- `find_le`: `null` when every key is greater than `val`. -/
def findLe [LE Key] [DecidableLE Key] (s : State Key) (val : Key) : Option Word :=
  (doFindLe val loopBound s s.root s.nil).map (fun pos => if pos = s.nil then null else pos)

def doFindKth : Nat → State Key → Word → Int → Option Word
  | 0, _, _, _ => none
  | fuel + 1, s, t, k =>
    if (s.mem ((s.mem t).ch false)).size ≤ k then
      if k = (s.mem ((s.mem t).ch false)).size then some t
      else doFindKth fuel s ((s.mem t).ch true) (k - ((s.mem ((s.mem t).ch false)).size + 1))
    else doFindKth fuel s ((s.mem t).ch false) k

/-- `find_kth`: the node at position `k` of the in-order sequence. -/
def findKth (s : State Key) (k : Int) : Option Word :=
  if (s.mem s.root).size ≤ k then some null else doFindKth loopBound s s.root k

end Find

/-- `do_walk`, collecting the keys passed to the callback; the bound is on the
recursion depth. -/
def doWalk : Nat → State Key → Word → Option (List Key)
  | 0, _, _ => none
  | fuel + 1, s, p =>
    if p = s.nil then some []
    else
      match doWalk fuel s ((s.mem p).ch false), doWalk fuel s ((s.mem p).ch true) with
      | some l, some r => some (l ++ (s.mem p).key :: r)
      | _, _ => none

def walk (s : State Key) : Option (List Key) := doWalk loopBound s s.root

end State

end Jkos.Rbt
